import Keystroke.Text.Utf8

set_option autoImplicit false

/-! # Blank characters

White space as Unicode has it, and the two operations on it: cutting it off at both ends and
splitting a line into the words between it. -/

namespace Keystroke

def isBlank (code : Nat) : Bool :=
  (9 ≤ code && code ≤ 13) || code == 0x20 || code == 0x85 || code == 0xA0 || code == 0x1680
    || (0x2000 ≤ code && code ≤ 0x200A) || code == 0x2028 || code == 0x2029 || code == 0x202F
    || code == 0x205F || code == 0x3000

private def blankGlyph (g : Glyph × Bytes) : Bool := isBlank g.1.code

def trimBlank (text : Bytes) : Bytes :=
  let inner := ((glyphs text).dropWhile blankGlyph).reverse.dropWhile blankGlyph
  inner.reverse.flatMap (·.2)

/-- Gathers the words of a character list; `word` is the one being read. -/
private def wordsFrom (word : Bytes) : List (Glyph × Bytes) → List Bytes
  | [] => if word.isEmpty then [] else [word]
  | g :: rest =>
    if blankGlyph g then
      if word.isEmpty then wordsFrom [] rest else word :: wordsFrom [] rest
    else wordsFrom (word ++ g.2) rest

def words (text : Bytes) : List Bytes := wordsFrom [] (glyphs text)

end Keystroke
