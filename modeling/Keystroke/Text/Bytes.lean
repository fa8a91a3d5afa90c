set_option autoImplicit false

/-! # Byte strings

Source lines, names and program text are byte strings. A name may hold bytes that are no UTF-8,
and every offset in a message counts bytes, so the library keeps bytes from end to end and only
its literals are written as character strings. The number spellings that messages and listings
share (decimal, two places, hexadecimal) stand here too. -/

namespace Keystroke

/-- A byte string. -/
abbrev Bytes := List UInt8

/-- The UTF-8 bytes of a piece of text, used for the fixed words of messages and listings. -/
def utf8 (s : String) : Bytes := s.toUTF8.data.toList

def ascii (c : Char) : UInt8 := c.toNat.toUInt8

def decimal (n : Nat) : Bytes := (Nat.toDigits 10 n).map ascii

def decimalInt : Int → Bytes
  | .ofNat n => decimal n
  | .negSucc n => ascii '-' :: decimal (n + 1)

def twoDigits (n : Nat) : Bytes := if n < 10 then ascii '0' :: decimal n else decimal n

def hexDigit (n : Nat) : UInt8 := if n < 10 then (48 + n).toUInt8 else (87 + n).toUInt8

def hexDigits : Nat → Nat → Bytes
  | 0, _ => []
  | width + 1, n => hexDigits width (n / 16) ++ [hexDigit (n % 16)]

def hex (bytes : Bytes) : Bytes := bytes.flatMap fun b => hexDigits 2 b.toNat

/-- A number as `width` bytes, the most significant first; higher bytes are dropped. -/
def bigEndian : Nat → Nat → Bytes
  | 0, _ => []
  | width + 1, n => bigEndian width (n / 256) ++ [(n % 256).toUInt8]

/-- The digits and letters `A` to `Z` with letters in upper case; other bytes are kept. -/
def upperAscii (b : UInt8) : UInt8 := if 97 ≤ b && b ≤ 122 then b - 32 else b

/-- Lowercases the letters `A` to `Z`; other bytes are kept. -/
def lowerAscii (b : UInt8) : UInt8 := if 65 ≤ b && b ≤ 90 then b + 32 else b

def isDigitByte (b : UInt8) : Bool := 48 ≤ b && b ≤ 57

/-- Bytewise order, a proper beginning coming first. -/
def bytesLE : Bytes → Bytes → Bool
  | [], _ => true
  | _ :: _, [] => false
  | a :: as, b :: bs => if a < b then true else if b < a then false else bytesLE as bs

def joinWith (sep : Bytes) : List Bytes → Bytes
  | [] => []
  | [piece] => piece
  | piece :: rest => piece ++ sep ++ joinWith sep rest

/-- Cuts at every occurrence of a byte; there is always at least one piece. -/
def splitOnByte (sep : UInt8) : Bytes → List Bytes
  | [] => [[]]
  | b :: rest =>
    if b = sep then [] :: splitOnByte sep rest
    else match splitOnByte sep rest with
      | [] => [[b]]
      | piece :: pieces => (b :: piece) :: pieces

/-- Drops the longest end whose bytes satisfy `p`. -/
def dropEndWhile (p : UInt8 → Bool) (bytes : Bytes) : Bytes :=
  (bytes.reverse.dropWhile p).reverse

end Keystroke
