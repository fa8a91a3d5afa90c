import Keystroke.Text.Printable
import Keystroke.Text.Utf8

set_option autoImplicit false

/-! # Quoted text

Messages and listings show names between double quotes, so that a reader sees where a name ends
and which bytes it holds. Printable characters stand as they are; a quote and a backslash take a
backslash; the usual control characters have a letter; a byte that starts no character, and any
other control byte, is shown in hexadecimal; all other characters by their number. -/

namespace Keystroke

private def controlLetter? (code : Nat) : Option Char :=
  if code = 7 then some 'a'
  else if code = 8 then some 'b'
  else if code = 12 then some 'f'
  else if code = 10 then some 'n'
  else if code = 13 then some 'r'
  else if code = 9 then some 't'
  else if code = 11 then some 'v'
  else none

def quoteGlyph (g : Glyph) (bytes : Bytes) : Bytes :=
  if g.isMalformed then utf8 "\\x" ++ hex bytes
  else if g.code = 34 || g.code = 92 then ascii '\\' :: bytes
  else if isPrintable g.code then bytes
  else match controlLetter? g.code with
    | some letter => [ascii '\\', ascii letter]
    | none =>
      if g.code < 32 || g.code = 127 then utf8 "\\x" ++ hexDigits 2 g.code
      else if g.code < 0x10000 then utf8 "\\u" ++ hexDigits 4 g.code
      else utf8 "\\U" ++ hexDigits 8 g.code

def quoted (text : Bytes) : Bytes :=
  ascii '"' :: (glyphs text).flatMap (fun g => quoteGlyph g.1 g.2) ++ [ascii '"']

end Keystroke
