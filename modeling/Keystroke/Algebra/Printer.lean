import Keystroke.Algebra.Expr
import Keystroke.Decimal.Layout

set_option autoImplicit false

/-! # Writing expressions

Two forms of an expression: the algebraic text, which can be read back, and an outline in
parentheses that shows the shape alone and leaves out offsets and the spelling of literals. -/

namespace Keystroke

def canonicalNumber (bits : UInt64) : Bytes := Decimal.formatBits .keystroke bits

/-- The operator as it stands between its operands. In compatibility mode `*` and `/` belong to
    names, so a product and a quotient have signs of their own. -/
def BinaryOp.symbol (compat : Bool) : BinaryOp → String
  | add => "+"
  | sub => "-"
  | mul => if compat then "×" else "*"
  | div => if compat then "÷" else "/"
  | pow => "^"
  | equation => "="
  | eq => "="
  | ne => "<>"
  | lt => "<"
  | le => "<="
  | gt => ">"
  | ge => ">="
  | and => " AND "
  | or => " OR "
  | xor => " XOR "

def UnaryOp.symbol : UnaryOp → String
  | neg => "-"
  | pos => "+"
  | not => "NOT "

def BinaryOp.outlineName : BinaryOp → String
  | add => "+"
  | sub => "-"
  | mul => "*"
  | div => "/"
  | pow => "^"
  | equation => "equation"
  | eq => "="
  | ne => "<>"
  | lt => "<"
  | le => "<="
  | gt => ">"
  | ge => ">="
  | and => "and"
  | or => "or"
  | xor => "xor"

def UnaryOp.outlineName : UnaryOp → String
  | neg => "neg"
  | pos => "pos"
  | not => "not"

def Function.outlineName : Function → String
  | sin => "sin"
  | cos => "cos"
  | tan => "tan"
  | asin => "asin"
  | acos => "acos"
  | atan => "atan"
  | ln => "ln"
  | log => "log"
  | exp => "exp"
  | alog => "alog"
  | sq => "sq"
  | sqrt => "sqrt"
  | inv => "inv"
  | abs => "abs"

namespace Expr

private def callText (name arguments : Bytes) : Bytes :=
  name ++ (utf8 "(" ++ (arguments ++ utf8 ")"))

private def colonText : Bytes := utf8 ":"

mutual

def print (compat : Bool) : Expr → Bytes
  | literal _ value text => if text.isEmpty then canonicalNumber value.toBits else text
  | var _ name => name
  | unary _ op e => utf8 op.symbol ++ e.print compat
  | group _ e => utf8 "(" ++ (e.print compat ++ utf8 ")")
  | binary _ op l r => l.print compat ++ (utf8 (op.symbol compat) ++ r.print compat)
  | apply _ fn e => callText (utf8 fn.name) (e.print compat)
  | extremum _ greatest es =>
    callText (utf8 (if greatest then "MAX" else "MIN")) (printAll compat es)
  | call _ name es => callText name (printAll compat es)
  | conditional _ c y n =>
    callText (utf8 "IF")
      (c.print compat ++ colonText ++ y.print compat ++ colonText ++ n.print compat)
  | sigma _ index a b s e =>
    callText (utf8 "SIGMA")
      (index ++ colonText ++ a.print compat ++ colonText ++ b.print compat ++ colonText
        ++ s.print compat ++ colonText ++ e.print compat)
  | fetch _ name => callText (utf8 "G") name
  | solving _ name => callText (utf8 "S") name
  | assign _ name e => callText (utf8 "L") (name ++ colonText ++ e.print compat)
  | item _ name e bracket =>
    if bracket then name ++ utf8 "[" ++ e.print compat ++ utf8 "]"
    else callText (utf8 "ITEM") (name ++ colonText ++ e.print compat)
  | tagged _ name e => name ++ colonText ++ e.print compat

def printAll (compat : Bool) : List Expr → Bytes
  | [] => []
  | [e] => e.print compat
  | e :: es => e.print compat ++ colonText ++ printAll compat es

end

private def outlineNode (head parts : Bytes) : Bytes := utf8 "(" ++ (head ++ (parts ++ utf8 ")"))

private def spaced (part : Bytes) : Bytes := 32 :: part

mutual

def outline : Expr → Bytes
  | literal _ value _ => Decimal.format .plain value
  | var _ name => name
  | unary _ op e => outlineNode (utf8 op.outlineName) (spaced e.outline)
  | group _ e => outlineNode (utf8 "group") (spaced e.outline)
  | binary _ op l r => outlineNode (utf8 op.outlineName) (spaced l.outline ++ spaced r.outline)
  | apply _ fn e => outlineNode (utf8 fn.outlineName) (spaced e.outline)
  | extremum _ greatest es => outlineNode (utf8 (if greatest then "max" else "min")) (outlineAll es)
  | call _ name es => outlineNode (utf8 "call " ++ name) (outlineAll es)
  | conditional _ c y n =>
    outlineNode (utf8 "if") (spaced c.outline ++ spaced y.outline ++ spaced n.outline)
  | sigma _ index a b s e =>
    outlineNode (utf8 "sigma " ++ index)
      (spaced a.outline ++ spaced b.outline ++ spaced s.outline ++ spaced e.outline)
  | fetch _ name => outlineNode (utf8 "g " ++ name) []
  | solving _ name => outlineNode (utf8 "s " ++ name) []
  | assign _ name e => outlineNode (utf8 "l " ++ name) (spaced e.outline)
  | item _ name e _ => outlineNode (utf8 "item " ++ name) (spaced e.outline)
  | tagged _ name e => outlineNode (utf8 "name " ++ name) (spaced e.outline)

def outlineAll : List Expr → Bytes
  | [] => []
  | e :: es => spaced e.outline ++ outlineAll es

end

end Expr

end Keystroke
