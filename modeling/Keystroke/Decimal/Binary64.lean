set_option autoImplicit false

/-! # The parts of a binary64 number

A finite number is `mantissa · 2 ^ exponent` with a sign. Taking a pattern apart and rounding a
fraction to the nearest pattern are done in exact integer arithmetic, so that reading and writing
decimals does not lean on the machine's own conversions. -/

namespace Keystroke.Binary64

/-- What a binary64 pattern stands for. -/
inductive Value where
  | finite (negative : Bool) (mantissa : Nat) (exponent : Int)
  | infinite (negative : Bool)
  | nan
deriving DecidableEq, Repr

def value (bits : UInt64) : Value :=
  let n : Nat := bits.toNat
  let negative := n / Nat.pow 2 63 == 1
  let biased : Nat := n / Nat.pow 2 52 % 2048
  let fraction : Nat := n % Nat.pow 2 52
  if biased == 2047 then (if fraction == 0 then .infinite negative else .nan)
  else if biased == 0 then .finite negative fraction (-1074)
  else .finite negative (fraction + Nat.pow 2 52) ((biased : Int) - 1075)

def infinityBits : Nat := 2047 * Nat.pow 2 52

/-- The quiet pattern that reading the word for "not a number" gives. -/
def nanBits : UInt64 := 0x7FF8000000000001

def scale (num den : Nat) (e : Int) : Nat × Nat :=
  if e < 0 then (num * Nat.pow 2 e.natAbs, den) else (num, den * Nat.pow 2 e.natAbs)

/-- The power of two whose multiples are the candidates for `num / den`: it leaves a quotient of
    53 bits, or is the smallest power that patterns have. -/
def unitExponent (num den : Nat) : Int :=
  let guess : Int := (num.log2 : Int) - den.log2 - 52
  let (n, d) := scale num den guess
  max (-1074) (if n / d < Nat.pow 2 52 then guess - 1 else guess)

/-- The pattern nearest to `num / den`, ties going to the even one, as a number; it is
    `infinityBits` or more when the fraction is beyond the finite patterns. -/
def nearest (num den : Nat) : Nat :=
  if num == 0 || den == 0 then 0
  else
    let e := unitExponent num den
    let (n, d) := scale num den e
    let q := n / d
    let r := n % d
    let up := d < 2 * r || (2 * r == d && q % 2 == 1)
    (e + 1074).toNat * Nat.pow 2 52 + q + (if up then 1 else 0)

/-- The pattern nearest to a signed fraction, or `none` when it is beyond the finite patterns. -/
def ofFraction? (negative : Bool) (num den : Nat) : Option UInt64 :=
  let magnitude := nearest num den
  if infinityBits ≤ magnitude then none
  else some (if negative then (Nat.pow 2 63 + magnitude).toUInt64 else magnitude.toUInt64)

def infinity (negative : Bool) : UInt64 :=
  if negative then (Nat.pow 2 63 + infinityBits).toUInt64 else infinityBits.toUInt64

def zero (negative : Bool) : UInt64 := if negative then (Nat.pow 2 63).toUInt64 else 0

/-- The pattern of an integer of at most 53 bits. -/
def ofInt (n : Int) : UInt64 :=
  match ofFraction? (n < 0) n.natAbs 1 with
  | some bits => bits
  | none => infinity (n < 0)

/-- The integer that a pattern stands for, if it stands for one; both zeros are zero. -/
def toInt? (bits : UInt64) : Option Int :=
  match value bits with
  | .finite negative mantissa exponent =>
    let power : Nat := Nat.pow 2 exponent.natAbs
    if exponent < 0 then
      if mantissa % power = 0 then
        some (if negative then -((mantissa / power : Nat) : Int) else (mantissa / power : Nat))
      else none
    else some (if negative then -((mantissa * power : Nat) : Int) else (mantissa * power : Nat))
  | _ => none

end Keystroke.Binary64
