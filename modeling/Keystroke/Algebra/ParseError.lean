import Keystroke.Algebra.Lexer

set_option autoImplicit false

/-! # What can be wrong with an equation

A malformed number, or a token where the grammar does not allow it. Each failure has the offset
where an editor puts its mark. -/

namespace Keystroke

/-- How many arguments a call takes. -/
structure Arity where
  least : Nat
  most : Option Nat
deriving DecidableEq, Repr

namespace Arity

def exactly (n : Nat) : Arity := ⟨n, some n⟩

def atLeast (n : Nat) : Arity := ⟨n, none⟩

def describe (a : Arity) : Bytes :=
  match a.most with
  | none => utf8 "at least " ++ decimal a.least ++ utf8 " argument(s)"
  | some most =>
    if most = a.least then
      if a.least = 1 then utf8 "1 argument" else decimal a.least ++ utf8 " arguments"
    else decimal a.least ++ utf8 " to " ++ decimal most ++ utf8 " arguments"

end Arity

/-- The ways to break the grammar. -/
inductive SyntaxFault where
  | trailing (token : Token)
  | nameTooLong
  | expectedKind (kind : TokenKind) (got : Token)
  | expectedName (got : Token)
  | expectedSeparator (got : Token)
  | needsNumber (operator : TokenKind)
  | needsCondition (word : Bytes)
  | outsideCondition (word : Bytes)
  | comparisonHere (operator : TokenKind)
  | unexpectedWord (word : Bytes)
  | unexpected (token : Token)
  | unexpectedEnd
  | wrongArity (name : Bytes) (arity : Arity)
  | conditionArgument (name : Bytes)
  | numericArgument (name : Bytes)
deriving Repr

def maxNameLength : Nat := 127

namespace SyntaxFault

def message : SyntaxFault → Bytes
  | trailing t => utf8 "unexpected " ++ t.describe ++ utf8 " after expression"
  | nameTooLong => utf8 "name longer than " ++ decimal maxNameLength ++ utf8 " characters"
  | expectedKind kind got => utf8 "expected " ++ utf8 kind.name ++ utf8 ", got " ++ got.describe
  | expectedName got => utf8 "expected a name, got " ++ got.describe
  | expectedSeparator got => utf8 "expected : or ), got " ++ got.describe
  | needsNumber op => utf8 op.name ++ utf8 " needs a numeric operand"
  | needsCondition word => word ++ utf8 " needs a boolean operand"
  | outsideCondition word => word ++ utf8 " not allowed outside a condition"
  | comparisonHere op => utf8 "comparison " ++ utf8 op.name ++ utf8 " not allowed here"
  | unexpectedWord word => utf8 "unexpected " ++ word
  | unexpected t => utf8 "unexpected " ++ t.describe
  | unexpectedEnd => utf8 "unexpected end of equation"
  | wrongArity name arity => name ++ utf8 " expects " ++ arity.describe
  | conditionArgument name => name ++ utf8 " needs a condition"
  | numericArgument name => name ++ utf8 " needs a numeric argument"

end SyntaxFault

/-- Why a text is no equation. -/
inductive ParseError where
  | badNumber (bad : BadNumber)
  | fault (offset : Nat) (cause : SyntaxFault)
deriving Repr

namespace ParseError

def offset : ParseError → Nat
  | badNumber bad => bad.offset
  | fault offset _ => offset

def message (e : ParseError) : Bytes :=
  utf8 "offset " ++ decimal e.offset ++ utf8 ": " ++
    match e with
    | badNumber bad => utf8 "invalid number " ++ quoted bad.text
    | fault _ cause => cause.message

end ParseError

end Keystroke
