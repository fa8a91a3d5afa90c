import Keystroke.Decimal.Shortest
import Keystroke.Text.Bytes

set_option autoImplicit false

/-! # Layout of decimal numbers

Digits are written positionally while the exponent of the first one is between -4 and a bound,
and with an exponent beyond. The bound is 6 for the shortest digits; for a fixed number of digits
it is that number, or the number of digits left after dropping zeros when these reach past the
point. The three layouts of the library differ in the number of digits and in how an exponent is
spelled. -/

namespace Keystroke.Decimal

/-- The choices that make up a number format. -/
structure Layout where
  /-- The number of significant digits; `none` asks for the fewest that read back. -/
  precision : Option Nat
  exponent : Int → Bytes

namespace Layout

private def signedExponent (e : Int) : Bytes :=
  ascii 'e' :: (if e < 0 then ascii '-' else ascii '+') :: twoDigits e.natAbs

def plain : Layout := ⟨none, signedExponent⟩

/-- Twelve significant digits, exponents such as `e+07`. -/
def twelve : Layout := ⟨some 12, signedExponent⟩

/-- The shortest digits, exponents such as `E7`: the form of a number line in a listing. -/
def keystroke : Layout := ⟨none, fun e => ascii 'E' :: decimalInt e⟩

/-- Below this exponent of the first digit a number is written positionally. -/
def positionalBound (layout : Layout) (d : Digits) : Int :=
  match layout.precision with
  | none => 6
  | some p =>
    let count := d.digits.length
    if count < p && d.exponent + 1 ≤ count then count else p

end Layout

private def digitByte (n : Nat) : UInt8 := (48 + n).toUInt8

def positional (d : Digits) : Bytes :=
  let digits := d.digits.map digitByte
  let zero := ascii '0'
  if d.exponent < 0 then
    if digits.isEmpty then [zero]
    else zero :: ascii '.' :: List.replicate (d.exponent.natAbs - 1) zero ++ digits
  else
    let places := d.exponent.toNat + 1
    let whole := digits.take places
    let whole := whole ++ List.replicate (places - whole.length) zero
    let fraction := digits.drop places
    if fraction.isEmpty then whole else whole ++ ascii '.' :: fraction

def scientific (layout : Layout) (d : Digits) : Bytes :=
  let mantissa := match d.digits.map digitByte with
    | [] => [ascii '0']
    | [first] => [first]
    | first :: rest => first :: ascii '.' :: rest
  mantissa ++ layout.exponent d.exponent

def layOut (layout : Layout) (d : Digits) : Bytes :=
  if d.exponent < -4 || layout.positionalBound d ≤ d.exponent then scientific layout d
  else positional d

def formatBits (layout : Layout) (bits : UInt64) : Bytes :=
  match Binary64.value bits with
  | .nan => utf8 "NaN"
  | .infinite negative => utf8 (if negative then "-Inf" else "+Inf")
  | .finite negative mantissa exponent =>
    let digits := match layout.precision with
      | none => shortest mantissa exponent
      | some count => rounded count mantissa exponent
    let text := layOut layout digits
    if negative then ascii '-' :: text else text

def format (layout : Layout) (x : Float) : Bytes := formatBits layout x.toBits

end Keystroke.Decimal
