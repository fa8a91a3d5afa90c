import Keystroke.Decimal.Binary64
import Keystroke.Text.Bytes

set_option autoImplicit false

/-! # Reading decimal numbers

A number is a sign, a mantissa and an exponent, in decimal or, after `0x`, in hexadecimal with a
binary exponent that must be there. Underscores may stand between digits. The words for infinity
and for "not a number" are read in any case. The result is the nearest binary64 pattern; text that
is not all of a number, and a number beyond the finite patterns, are told apart. -/

namespace Keystroke.Decimal

/-- Why a text gives no number. -/
inductive ReadError where
  | malformed
  | outOfRange
deriving DecidableEq, Repr

def ReadError.message : ReadError → Bytes
  | .malformed => utf8 "invalid syntax"
  | .outOfRange => utf8 "value out of range"

def digitValue? (base : Nat) (b : UInt8) : Option Nat :=
  if isDigitByte b then some (b.toNat - 48)
  else
    let low := lowerAscii b
    if base == 16 && 97 ≤ low && low ≤ 102 then some (low.toNat - 87) else none

/-- A mantissa being read: the digits so far as one number, how many of them follow the point,
    and what has been seen. -/
structure Mantissa where
  value : Nat
  places : Nat
  point : Bool
  digits : Bool

/-- Reads digits, one point and underscores; gives back what follows. -/
def readMantissa (base : Nat) (m : Mantissa) : Bytes → Mantissa × Bytes
  | [] => (m, [])
  | b :: rest =>
    if b == ascii '_' then readMantissa base m rest
    else if b == ascii '.' then
      if m.point then (m, b :: rest) else readMantissa base { m with point := true } rest
    else match digitValue? base b with
      | some d =>
        readMantissa base
          ⟨m.value * base + d, if m.point then m.places + 1 else m.places, m.point, true⟩ rest
      | none => (m, b :: rest)

/-- Reads the digits of an exponent, passing over underscores. Past ten thousand the value no
    longer grows: the number is then far outside every range. -/
def readExponentDigits (e : Nat) : Bytes → Nat × Bytes
  | [] => (e, [])
  | b :: rest =>
    if b == ascii '_' then readExponentDigits e rest
    else if isDigitByte b then
      readExponentDigits (if e < 10000 then e * 10 + (b.toNat - 48) else e) rest
    else (e, b :: rest)

/-- Reads a sign; `true` is minus. -/
def readSign : Bytes → Bool × Bytes
  | [] => (false, [])
  | b :: rest =>
    if b == ascii '-' then (true, rest)
    else if b == ascii '+' then (false, rest)
    else (false, b :: rest)

/-- Reads an exponent after its mark: a sign and at least one digit. -/
def readExponent (text : Bytes) : Option (Int × Bytes) :=
  let (negative, text) := readSign text
  match text with
  | [] => none
  | b :: _ =>
    if isDigitByte b then
      let (e, rest) := readExponentDigits 0 text
      some (if negative then -(e : Int) else e, rest)
    else none

/-- What stood before a position, for the rule on underscores. -/
private inductive Seen where
  | start | digit | underscore | other
deriving DecidableEq

/-- Every underscore has a digit before it and one after it. -/
private def underscoresFrom (base : Nat) : Seen → Bytes → Bool
  | seen, [] => seen != .underscore
  | seen, b :: rest =>
    if (digitValue? base b).isSome then underscoresFrom base .digit rest
    else if b == ascii '_' then seen == .digit && underscoresFrom base .underscore rest
    else seen != .underscore && underscoresFrom base .other rest

/-- Whether the underscores of a number without its sign stand where they may. A mark for a base
    counts as a digit. -/
def underscoresWellPlaced : Bytes → Bool
  | a :: b :: rest =>
    let mark := lowerAscii b
    if a == ascii '0' && (mark == ascii 'b' || mark == ascii 'o' || mark == ascii 'x') then
      underscoresFrom (if mark == ascii 'x' then 16 else 10) .digit rest
    else underscoresFrom 10 .start (a :: b :: rest)
  | text => underscoresFrom 10 .start text

def sameLetters (a b : Bytes) : Bool := a.map lowerAscii == b.map lowerAscii

def readWord? (text : Bytes) : Option UInt64 :=
  let (negative, word) := readSign text
  if sameLetters word (utf8 "inf") || sameLetters word (utf8 "infinity") then
    some (Binary64.infinity negative)
  else if sameLetters text (utf8 "nan") then some Binary64.nanBits
  else none

def isHexadecimal : Bytes → Bool
  | a :: b :: _ :: _ => a == ascii '0' && lowerAscii b == ascii 'x'
  | _ => false

/-- Rounds `mantissa · base ^ exponent`, the base being ten or two. -/
def assemble (negative : Bool) (base mantissa : Nat) (exponent : Int) :
    Except ReadError UInt64 :=
  if mantissa == 0 then .ok (Binary64.zero negative)
  else
    let power := Nat.pow base exponent.natAbs
    let fraction := if exponent < 0 then (mantissa, power) else (mantissa * power, 1)
    match Binary64.ofFraction? negative fraction.1 fraction.2 with
    | some bits => .ok bits
    | none => .error .outOfRange

def readDigits (text : Bytes) : Except ReadError UInt64 :=
  let (negative, body) := readSign text
  let isHex := isHexadecimal body
  let base := if isHex then 16 else 10
  let (m, rest) := readMantissa base ⟨0, 0, false, false⟩ (if isHex then body.drop 2 else body)
  if !m.digits || (body.contains (ascii '_') && !underscoresWellPlaced body) then
    .error .malformed
  else if isHex then
    match rest with
    | [] => .error .malformed
    | mark :: rest =>
      if lowerAscii mark != ascii 'p' then .error .malformed
      else match readExponent rest with
        | some (e, []) => assemble negative 2 m.value (e - 4 * m.places)
        | _ => .error .malformed
  else
    match rest with
    | [] => assemble negative 10 m.value (-(m.places : Int))
    | mark :: rest =>
      if lowerAscii mark != ascii 'e' then .error .malformed
      else match readExponent rest with
        | some (e, []) => assemble negative 10 m.value (e - m.places)
        | _ => .error .malformed

def read (text : Bytes) : Except ReadError UInt64 :=
  match readWord? text with
  | some bits => .ok bits
  | none => readDigits text

end Keystroke.Decimal
