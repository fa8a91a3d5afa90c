import Keystroke.Text.Quoted

set_option autoImplicit false

/-! # Tokens of an equation

A token is a kind, the bytes it was written with and the offset of the first of them. The four
words for connectives are identifiers to the lexer and keywords to the parser. -/

namespace Keystroke

/-- The kinds of token, in the order of their numbers. -/
inductive TokenKind where
  | endOfText
  | illegal
  | number
  | ident
  | plus
  | minus
  | star
  | slash
  | caret
  | leftParen
  | rightParen
  | leftBracket
  | rightBracket
  | colon
  | equal
  | notEqual
  | less
  | lessEqual
  | greater
  | greaterEqual
deriving DecidableEq, Repr

namespace TokenKind

def name : TokenKind → String
  | endOfText => "EOF"
  | illegal => "ILLEGAL"
  | number => "NUMBER"
  | ident => "IDENT"
  | plus => "+"
  | minus => "-"
  | star => "*"
  | slash => "/"
  | caret => "^"
  | leftParen => "("
  | rightParen => ")"
  | leftBracket => "["
  | rightBracket => "]"
  | colon => ":"
  | equal => "="
  | notEqual => "<>"
  | less => "<"
  | lessEqual => "<="
  | greater => ">"
  | greaterEqual => ">="

def showsText : TokenKind → Bool
  | illegal | number | ident => true
  | _ => false

end TokenKind

/-- A token: its kind, its bytes and the offset of the first one. -/
structure Token where
  kind : TokenKind
  text : Bytes
  offset : Nat
deriving DecidableEq, Repr

namespace Token

def shownLength : Nat := 20

def describe (t : Token) : Bytes :=
  let name := utf8 t.kind.name
  if !t.kind.showsText then name
  else if shownLength < t.text.length then
    name ++ utf8 "(" ++ quoted (t.text.take shownLength) ++ utf8 "...)"
  else name ++ utf8 "(" ++ quoted t.text ++ utf8 ")"

end Token

/-- The words that join conditions and can name nothing. -/
inductive Keyword where
  | and
  | or
  | xor
  | not
deriving DecidableEq, Repr

namespace Keyword

def text : Keyword → Bytes
  | and => utf8 "AND"
  | or => utf8 "OR"
  | xor => utf8 "XOR"
  | not => utf8 "NOT"

def ofText? (name : Bytes) : Option Keyword :=
  if name = and.text then some and
  else if name = or.text then some or
  else if name = xor.text then some xor
  else if name = not.text then some not
  else none

end Keyword

def Token.keyword? (t : Token) : Option Keyword :=
  match t.kind with
  | .ident => Keyword.ofText? t.text
  | _ => none

def Token.isName (t : Token) : Bool := t.kind == .ident && (Keyword.ofText? t.text).isNone

end Keystroke
