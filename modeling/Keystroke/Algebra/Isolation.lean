import Keystroke.Algebra.Occurrence
import Keystroke.Algebra.Printer

set_option autoImplicit false

/-! # Solving for a variable

An equation in which a variable occurs once is solved for it by undoing, from the outside in, the
operations above that occurrence on the other side. An expression without `=` is taken to be
zero. -/

namespace Keystroke

/-- Why an equation has no solution in closed form. -/
inductive IsolationError where
  | absent (name : Bytes)
  | entangled (name : Bytes)
  | notInvertible (name : Bytes) (operation : Expr)

namespace IsolationError

def message (e : IsolationError) : Bytes :=
  utf8 "isolation failed: " ++
    match e with
    | absent name => name ++ utf8 " does not occur"
    | entangled name => name ++ utf8 " is not invertible here"
    | notInvertible name operation =>
      utf8 "cannot invert " ++ operation.print false ++ utf8 " around " ++ name

end IsolationError

namespace Expr

/-- An operand in parentheses if it needs them to read back with the same shape. -/
def parenthesized : Expr → Expr
  | e@(binary _ _ _ _) | e@(unary _ _ _) => group e.offset e
  | e => e

private def operation (p : Nat) (op : BinaryOp) (l r : Expr) : Expr :=
  binary p op l.parenthesized r.parenthesized

/-- The other side after undoing an operation whose left operand, beside `other`, holds the
    variable. -/
def undoLeft (p : Nat) (other side : Expr) : BinaryOp → Option Expr
  | .add => some (operation p .sub side other)
  | .sub => some (operation p .add side other)
  | .mul => some (operation p .div side other)
  | .div => some (operation p .mul side other)
  | .pow => some (operation p .pow side (binary p .div (literal p 1 []) other.parenthesized))
  | _ => none

/-- The other side after undoing an operation whose right operand, beside `other`, holds the
    variable. -/
def undoRight (p : Nat) (other side : Expr) : BinaryOp → Option Expr
  | .add => some (operation p .sub side other)
  | .sub => some (operation p .sub other side)
  | .mul => some (operation p .div side other)
  | .div => some (operation p .div other side)
  | .pow => some (operation p .div (apply p .log side) (apply p .log other))
  | _ => none

/-- Undoes the operations on the way to the variable; `side` is what the first expression is
    equal to. -/
def undo (name : Bytes) : Expr → Expr → Except IsolationError Expr
  | var p n, side =>
    if n = name then .ok side else .error (.notInvertible name (var p n))
  | group _ e, side => undo name e side
  | tagged _ _ e, side => undo name e side
  | unary _ .pos e, side => undo name e side
  | unary p .neg e, side => undo name e (unary p .neg side.parenthesized)
  | unary p .not e, _ => .error (.notInvertible name (unary p .not e))
  | binary p op l r, side =>
    if l.occurrence name = .absent then
      match undoRight p l side op with
      | some side => undo name r side
      | none => .error (.notInvertible name (binary p op l r))
    else
      match undoLeft p r side op with
      | some side => undo name l side
      | none => .error (.notInvertible name (binary p op l r))
  | apply p fn e, side =>
    match fn.inverse? with
    | some inverse => undo name e (apply p inverse side)
    | none => .error (.notInvertible name (apply p fn e))
  | e, _ => .error (.notInvertible name e)

/-- The two sides of an equation; without `=` the right side is zero. -/
def sides : Expr → Expr × Expr
  | binary _ .equation l r => (l, r)
  | e => (e, literal e.offset 0 [])

def isolate (name : Bytes) (e : Expr) : Except IsolationError Expr :=
  match e.occurrence name with
  | .absent => .error (.absent name)
  | .entangled => .error (.entangled name)
  | .single =>
    let (l, r) := e.untagged.sides
    if l.occurrence name = .absent then undo name r l else undo name l r

end Expr

end Keystroke
