import Keystroke.Algebra.Token

set_option autoImplicit false

/-! # Reading tokens

Only spaces separate tokens. In compatibility mode the characters `* / [ ] !` belong to names, and
a product and a quotient are written `×` and `÷`; five control bytes stand for the operators that
have no ASCII character. The one thing that can go wrong is a malformed number, which stops the
reader behind the bytes it looked at. A cursor keeps the unread bytes together with their offset,
so that reading is a function of the rest of the text alone. -/

namespace Keystroke

/-- A malformed number: the offset of its first byte and the bytes read before the failure. -/
structure BadNumber where
  offset : Nat
  text : Bytes
deriving DecidableEq, Repr

/-- A place in a text: the unread bytes and the offset of the first of them. -/
structure Cursor where
  offset : Nat
  rest : Bytes
deriving DecidableEq, Repr

namespace Cursor

def ofOffset (text : Bytes) (offset : Nat) : Cursor := ⟨offset, text.drop offset⟩

def advance (c : Cursor) (n : Nat) : Cursor := ⟨c.offset + n, c.rest.drop n⟩

def leadingSpaces : Bytes → Nat
  | [] => 0
  | b :: rest => if b = 32 then leadingSpaces rest + 1 else 0

def skipSpaces (c : Cursor) : Cursor := c.advance (leadingSpaces c.rest)

end Cursor

/-! ## Symbols -/

/-- The kind and width of the symbol that starts with a character, `next` being the byte behind
    it. -/
def symbol? (compat : Bool) (g : Glyph) (next : Option UInt8) : Option (TokenKind × Nat) :=
  let code := g.code
  if code = 60 then
    if next = some 61 then some (.lessEqual, 2)
    else if next = some 62 then some (.notEqual, 2)
    else some (.less, 1)
  else if code = 62 then
    if next = some 61 then some (.greaterEqual, 2) else some (.greater, 1)
  else if code = 43 then some (.plus, 1)
  else if code = 45 then some (.minus, 1)
  else if code = 94 then some (.caret, 1)
  else if code = 40 then some (.leftParen, 1)
  else if code = 41 then some (.rightParen, 1)
  else if code = 58 then some (.colon, 1)
  else if code = 61 then some (.equal, 1)
  else if code = 0xD7 || code = 1 then some (.star, g.width)
  else if code = 0xF7 || code = 0 then some (.slash, g.width)
  else if code = 0x2260 || code = 12 then some (.notEqual, g.width)
  else if code = 0x2264 || code = 9 then some (.lessEqual, g.width)
  else if code = 0x2265 || code = 11 then some (.greaterEqual, g.width)
  else if compat then none
  else if code = 42 then some (.star, 1)
  else if code = 47 then some (.slash, 1)
  else if code = 91 then some (.leftBracket, 1)
  else if code = 93 then some (.rightBracket, 1)
  else if code = 33 then
    if next = some 61 then some (.notEqual, 2) else some (.illegal, 1)
  else none

/-! ## Names -/

def endsName (compat : Bool) (code : Nat) : Bool :=
  [32, 43, 45, 94, 40, 41, 58, 61, 60, 62, 0xD7, 0xF7, 0x2260, 0x2264, 0x2265,
    0, 1, 9, 11, 12].contains code
  || (!compat && [42, 47, 91, 93, 33].contains code)

/-- The longest name at the front of a text. The first argument is the number of bytes of the
    current character that are still to be passed. -/
def nameFrom (compat : Bool) : Nat → Bytes → Bytes
  | _, [] => []
  | skip + 1, b :: rest => b :: nameFrom compat skip rest
  | 0, b :: rest =>
    match firstGlyph? (b :: rest) with
    | none => []
    | some g => if endsName compat g.code then [] else b :: nameFrom compat (g.width - 1) rest

def nameAt (compat : Bool) (text : Bytes) : Bytes := nameFrom compat 0 text

/-! ## Numbers -/

def isPoint (b : UInt8) : Bool := b == 46 || b == 44

/-- The control byte that marks an exponent in stored number text. -/
def exponentByte : UInt8 := 24

def isExponentMark (b : UInt8) : Bool := b == 69 || b == 101 || b == exponentByte

/-- The part of a number that is being read. -/
inductive NumberPart where
  | whole
  | fraction
  | exponentSign
  | exponent
deriving DecidableEq, Repr

/-- What has been seen of a number. -/
structure NumberScan where
  part : NumberPart := .whole
  mantissaDigits : Nat := 0
  exponentDigits : Nat := 0
  secondPoint : Bool := false
  width : Nat := 0
deriving DecidableEq, Repr

namespace NumberScan

/-- The scan behind one more byte of a number. -/
def step? (s : NumberScan) (b : UInt8) : Option NumberScan :=
  let s' := { s with width := s.width + 1 }
  match s.part with
  | .whole =>
    if isPoint b then some { s' with part := .fraction }
    else if isExponentMark b then some { s' with part := .exponentSign }
    else if isDigitByte b then some { s' with mantissaDigits := s.mantissaDigits + 1 }
    else none
  | .fraction =>
    if isPoint b then none
    else if isExponentMark b then some { s' with part := .exponentSign }
    else if isDigitByte b then some { s' with mantissaDigits := s.mantissaDigits + 1 }
    else none
  | .exponentSign =>
    if b == 43 || b == 45 then some { s' with part := .exponent }
    else if isDigitByte b then
      some { s' with part := .exponent, exponentDigits := s.exponentDigits + 1 }
    else none
  | .exponent =>
    if isDigitByte b then some { s' with exponentDigits := s.exponentDigits + 1 } else none

/-- The scan at a byte that cannot continue the number. -/
def stop (s : NumberScan) (b : UInt8) : NumberScan :=
  if s.part = .fraction ∧ isPoint b = true then { s with secondPoint := true } else s

def run (s : NumberScan) : Bytes → NumberScan
  | [] => s
  | b :: rest =>
    match s.step? b with
    | some s' => run s' rest
    | none => s.stop b

/-- Whether what was read is a number: there are digits in the mantissa, one point at most, and
    digits in an exponent that was begun. -/
def wellFormed (s : NumberScan) : Bool :=
  s.mantissaDigits != 0 && !s.secondPoint && s.part != .exponentSign
    && !(s.part == .exponent && s.exponentDigits == 0)

end NumberScan

def startsNumber (code : Nat) : Bool := code == 46 || code == 44 || (48 ≤ code && code ≤ 57)

/-! ## Tokens -/

namespace Cursor

def take (c : Cursor) (kind : TokenKind) (width : Nat) : Token × Cursor :=
  (⟨kind, c.rest.take width, c.offset⟩, c.advance width)

/-- Reads a token and moves behind it. At the end of the text the token is empty. -/
def next (compat : Bool) (c : Cursor) : Except BadNumber Token × Cursor :=
  let c := c.skipSpaces
  match firstGlyph? c.rest with
  | none => (.ok ⟨.endOfText, [], c.offset⟩, c)
  | some g =>
    match symbol? compat g c.rest[1]? with
    | some (kind, width) =>
      let (token, after) := c.take kind width
      (.ok token, after)
    | none =>
      if startsNumber g.code then
        let scan := NumberScan.run {} c.rest
        if scan.wellFormed then
          let (token, after) := c.take .number scan.width
          (.ok token, after)
        else (.error ⟨c.offset, c.rest.take scan.width⟩, c.advance scan.width)
      else
        let (token, after) := c.take .ident (nameAt compat c.rest).length
        (.ok token, after)

end Cursor

/-- The tokens of a text before its end or its first malformed number, and what stands there: the
    offset of the end, or the malformed number. -/
structure TokenStream where
  tokens : List Token
  ending : Except BadNumber Nat
deriving Repr

namespace TokenStream

/-- Reads tokens from a cursor; the first argument bounds their number. -/
def readFrom (compat : Bool) : Nat → Cursor → TokenStream
  | 0, c => ⟨[], .ok c.offset⟩
  | count + 1, c =>
    match c.next compat with
    | (.error bad, _) => ⟨[], .error bad⟩
    | (.ok token, after) =>
      if token.kind = .endOfText then ⟨[], .ok token.offset⟩
      else
        let rest := readFrom compat count after
        { rest with tokens := token :: rest.tokens }

/-- The tokens of a text. Each has at least one byte, so there are no more of them than bytes. -/
def ofText (compat : Bool) (text : Bytes) : TokenStream :=
  readFrom compat (text.length + 1) ⟨0, text⟩

end TokenStream

end Keystroke
