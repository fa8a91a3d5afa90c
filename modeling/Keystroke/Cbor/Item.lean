import Keystroke.Text.Utf8

set_option autoImplicit false

/-! # CBOR items

A data item of the Concise Binary Object Representation, and its shortest bytes. Every item starts
with a head: three bits say of which type it is, and the rest of the head is a number, the value
itself or a length, in as few bytes as hold it. -/

namespace Keystroke.Cbor

/-- A data item. -/
inductive Item where
  | unsigned (n : Nat)
  /-- The integer `-1 - n`. -/
  | negative (n : Nat)
  | bytes (b : Bytes)
  | text (b : Bytes)
  | malformedText
  | array (items : List Item)
  | map (entries : List (Item × Item))
  | tagged (tag : Nat) (item : Item)
  /-- A simple value; the truth values and the two kinds of nothing are such. -/
  | simple (n : Nat)
  | float (bits : UInt64)

namespace Item

def bool (b : Bool) : Item := .simple (if b then 21 else 20)

def null : Item := .simple 22

end Item

/-! ## Numbers in fewer bits -/

/-- A binary interchange format: the bits of its exponent and of its fraction. -/
structure Width where
  exponentBits : Nat
  fractionBits : Nat
deriving DecidableEq, Repr

namespace Width

def half : Width := ⟨5, 10⟩

def single : Width := ⟨8, 23⟩

def bias (w : Width) : Nat := Nat.pow 2 (w.exponentBits - 1) - 1

/-- The pattern in this format that stands for the same number as a binary64 pattern, if there is
    one. The number that is none has one pattern. -/
def narrow? (w : Width) (bits : UInt64) : Option Nat :=
  let n : Nat := bits.toNat
  let sign : Nat := n / Nat.pow 2 63 * Nat.pow 2 (w.exponentBits + w.fractionBits)
  let biased : Nat := n / Nat.pow 2 52 % 2048
  let fraction : Nat := n % Nat.pow 2 52
  let top : Nat := Nat.pow 2 w.exponentBits - 1
  if biased = 2047 then
    if fraction = 0 then some (sign + top * Nat.pow 2 w.fractionBits)
    else some (top * Nat.pow 2 w.fractionBits + Nat.pow 2 (w.fractionBits - 1))
  else if biased = 0 then (if fraction = 0 then some sign else none)
  else if biased + w.bias ≥ 1023 + top then none
  else if biased + w.bias > 1023 then
    let unit : Nat := Nat.pow 2 (52 - w.fractionBits)
    if fraction % unit = 0 then
      some (sign + (biased + w.bias - 1023) * Nat.pow 2 w.fractionBits + fraction / unit)
    else none
  else
    let unit : Nat := Nat.pow 2 (52 - w.fractionBits + (1024 - biased - w.bias))
    let significand : Nat := Nat.pow 2 52 + fraction
    if significand % unit = 0 then some (sign + significand / unit) else none

/-- The binary64 pattern of the number that a pattern of this format stands for; the format is
    narrower. -/
def widen (w : Width) (pattern : Nat) : UInt64 :=
  let sign : Nat := pattern / Nat.pow 2 (w.exponentBits + w.fractionBits) % 2 * Nat.pow 2 63
  let biased : Nat := pattern / Nat.pow 2 w.fractionBits % Nat.pow 2 w.exponentBits
  let fraction : Nat := pattern % Nat.pow 2 w.fractionBits
  let unit : Nat := Nat.pow 2 (52 - w.fractionBits)
  if biased = Nat.pow 2 w.exponentBits - 1 then
    (sign + 2047 * Nat.pow 2 52 + fraction * unit).toUInt64
  else if 0 < biased then
    (sign + (biased + 1023 - w.bias) * Nat.pow 2 52 + fraction * unit).toUInt64
  else if fraction = 0 then sign.toUInt64
  else
    let shift := w.fractionBits - fraction.log2
    (sign + (1024 - w.bias - shift) * Nat.pow 2 52
      + (fraction * Nat.pow 2 shift - Nat.pow 2 w.fractionBits) * unit).toUInt64

end Width

/-! ## Bytes -/

def head (major n : Nat) : Bytes :=
  let first (info : Nat) : UInt8 := (major * 32 + info).toUInt8
  if n < 24 then [first n]
  else if n < Nat.pow 2 8 then first 24 :: bigEndian 1 n
  else if n < Nat.pow 2 16 then first 25 :: bigEndian 2 n
  else if n < Nat.pow 2 32 then first 26 :: bigEndian 4 n
  else first 27 :: bigEndian 8 n

/-- The bytes of a number in the narrowest format that holds it. -/
def floatBytes (bits : UInt64) : Bytes :=
  match Width.half.narrow? bits with
  | some pattern => 0xF9 :: bigEndian 2 pattern
  | none =>
    match Width.single.narrow? bits with
    | some pattern => 0xFA :: bigEndian 4 pattern
    | none => 0xFB :: bigEndian 8 bits.toNat

namespace Item

mutual

/-- The bytes of an item; the entries of a map are written in their order. -/
def encode : Item → Bytes
  | unsigned n => head 0 n
  | negative n => head 1 n
  | bytes b => head 2 b.length ++ b
  | text b => head 3 b.length ++ b
  | malformedText => []
  | array items => head 4 items.length ++ encodeAll items
  | map entries => head 5 entries.length ++ encodeEntries entries
  | tagged tag item => head 6 tag ++ item.encode
  | simple n => head 7 n
  | float bits => floatBytes bits

def encodeAll : List Item → Bytes
  | [] => []
  | item :: items => item.encode ++ encodeAll items

def encodeEntries : List (Item × Item) → Bytes
  | [] => []
  | (key, value) :: entries => key.encode ++ value.encode ++ encodeEntries entries

end

end Item

end Keystroke.Cbor
