import Keystroke.Text.Bytes

set_option autoImplicit false

/-! # Integers of varying length

An integer is written in groups of seven bits, the most significant first; the last byte has its
high bit set. Five bytes hold every 32-bit number. -/

namespace Keystroke.Varint

/-- The groups of a number in front of its last one, of which the first argument is a bound. -/
def leadingGroups : Nat → Nat → Bytes
  | 0, _ => []
  | count + 1, n => if n = 0 then [] else leadingGroups count (n / 128) ++ [(n % 128).toUInt8]

def encode (n : UInt32) : Bytes :=
  leadingGroups 4 (n.toNat / 128) ++ [(n.toNat % 128 + 128).toUInt8]

/-- Reads on with the number so far, at most as many bytes as the first argument says; gives the
    number and how many bytes were read. -/
def decodeFrom : Nat → UInt32 → Bytes → Option (UInt32 × Nat)
  | 0, _, _ => none
  | _ + 1, _, [] => none
  | count + 1, n, b :: rest =>
    let n := (n <<< 7) ||| (b &&& 0x7F).toUInt32
    if b &&& 0x80 != 0 then some (n, 1)
    else (decodeFrom count n rest).map fun r => (r.1, r.2 + 1)

def decode (bytes : Bytes) : Option (UInt32 × Nat) := decodeFrom 5 0 bytes

end Keystroke.Varint
