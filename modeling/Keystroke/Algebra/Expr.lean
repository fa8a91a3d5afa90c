import Keystroke.Text.Bytes

set_option autoImplicit false

/-! # Expressions

The tree of an equation. Every node keeps the offset of the token that made it, and a literal the
spelling it was typed with, which is empty for a literal that a rearrangement made. The defining
`=` of an equation is an operator of its own, apart from the comparison. -/

namespace Keystroke

/-- Operators in front of their operand. -/
inductive UnaryOp where
  | neg
  | pos
  | not
deriving DecidableEq, Repr

/-- Operators between two operands. `equation` is the defining `=`; its value is the left side
    less the right one. -/
inductive BinaryOp where
  | add
  | sub
  | mul
  | div
  | pow
  | equation
  | eq
  | ne
  | lt
  | le
  | gt
  | ge
  | and
  | or
  | xor
deriving DecidableEq, Repr

namespace BinaryOp

def isComparison : BinaryOp → Bool
  | eq | ne | lt | le | gt | ge => true
  | _ => false

def isLogical : BinaryOp → Bool
  | and | or | xor => true
  | _ => false

end BinaryOp

/-- The functions of one number. -/
inductive Function where
  | sin
  | cos
  | tan
  | asin
  | acos
  | atan
  | ln
  | log
  | exp
  | alog
  | sq
  | sqrt
  | inv
  | abs
deriving DecidableEq, Repr

namespace Function

def all : List Function :=
  [sin, cos, tan, asin, acos, atan, ln, log, exp, alog, sq, sqrt, inv, abs]

def name : Function → String
  | sin => "SIN"
  | cos => "COS"
  | tan => "TAN"
  | asin => "ASIN"
  | acos => "ACOS"
  | atan => "ATAN"
  | ln => "LN"
  | log => "LOG"
  | exp => "EXP"
  | alog => "ALOG"
  | sq => "SQ"
  | sqrt => "SQRT"
  | inv => "INV"
  | abs => "ABS"

def ofName? (text : Bytes) : Option Function := all.find? fun f => utf8 f.name == text

/-- The function that undoes another; `ABS` loses the sign and has none. -/
def inverse? : Function → Option Function
  | sin => some asin
  | asin => some sin
  | cos => some acos
  | acos => some cos
  | tan => some atan
  | atan => some tan
  | ln => some exp
  | exp => some ln
  | log => some alog
  | alog => some log
  | sq => some sqrt
  | sqrt => some sq
  | inv => some inv
  | abs => none

end Function

/-- An expression. -/
inductive Expr where
  | literal (offset : Nat) (value : Float) (text : Bytes)
  | var (offset : Nat) (name : Bytes)
  | unary (offset : Nat) (op : UnaryOp) (operand : Expr)
  | group (offset : Nat) (inner : Expr)
  | binary (offset : Nat) (op : BinaryOp) (left right : Expr)
  | apply (offset : Nat) (fn : Function) (argument : Expr)
  /-- The greatest or the least of the arguments. -/
  | extremum (offset : Nat) (greatest : Bool) (arguments : List Expr)
  /-- A call of a name that the parser does not know. -/
  | call (offset : Nat) (name : Bytes) (arguments : List Expr)
  | conditional (offset : Nat) (condition yes no : Expr)
  /-- A sum; the index is bound in the body only. -/
  | sigma (offset : Nat) (index : Bytes) (first last step body : Expr)
  /-- The value of a variable, not counted as one of the equation's unknowns. -/
  | fetch (offset : Nat) (name : Bytes)
  | assign (offset : Nat) (name : Bytes) (value : Expr)
  /-- True while the equation is being solved for the name. -/
  | solving (offset : Nat) (name : Bytes)
  /-- An element of a matrix, written with brackets or as a call. -/
  | item (offset : Nat) (name : Bytes) (index : Expr) (bracket : Bool)
  | tagged (offset : Nat) (name : Bytes) (inner : Expr)

instance : Inhabited Expr := ⟨.literal 0 0 []⟩

namespace Expr

def offset : Expr → Nat
  | literal p _ _ | var p _ | unary p _ _ | group p _ | binary p _ _ _ | apply p _ _
  | extremum p _ _ | call p _ _ | conditional p _ _ _ | sigma p _ _ _ _ _ | fetch p _
  | assign p _ _ | solving p _ | item p _ _ _ | tagged p _ _ => p

def isBool : Expr → Bool
  | unary _ op _ => op == .not
  | group _ e => e.isBool
  | binary _ op _ _ => op.isComparison || op.isLogical
  | solving _ _ => true
  | tagged _ _ e => e.isBool
  | _ => false

def isVariable (name : Bytes) : Expr → Bool
  | var _ n => n == name
  | _ => false

def tag : Expr → Bytes
  | tagged _ name _ => name
  | _ => []

def untagged : Expr → Expr
  | tagged _ _ e => e
  | e => e

mutual

/-- The offsets of all nodes, a node before its parts and these from left to right. -/
def offsets : Expr → List Nat
  | literal p _ _ | var p _ | fetch p _ | solving p _ => [p]
  | unary p _ e | group p e | apply p _ e | assign p _ e | item p _ e _ | tagged p _ e =>
    p :: e.offsets
  | binary p _ l r => p :: (l.offsets ++ r.offsets)
  | extremum p _ es | call p _ es => p :: offsetsAll es
  | conditional p c y n => p :: (c.offsets ++ y.offsets ++ n.offsets)
  | sigma p _ a b s e => p :: (a.offsets ++ b.offsets ++ s.offsets ++ e.offsets)

def offsetsAll : List Expr → List Nat
  | [] => []
  | e :: es => e.offsets ++ offsetsAll es

end

end Expr

end Keystroke
