import Keystroke.Decimal.Binary64

set_option autoImplicit false

/-! # Decimal digits of a binary number

Two ways to choose the digits of `m · 2 ^ q`: the fewest that read back as the same pattern, and a
given number of correctly rounded ones. Both work on exact fractions. For the first, the reals
that round to the pattern form an interval, whose ends belong to it when `m` is even; the grids of
1, 2, … 17 digits are tried in turn, and of a grid only the two neighbours of the value can be the
nearest point inside. -/

namespace Keystroke.Decimal

/-- A positive decimal: digits without a zero at either end, the first standing at
    `10 ^ exponent`. The empty list of digits is zero. -/
structure Digits where
  digits : List Nat
  exponent : Int
deriving DecidableEq, Repr

namespace Digits

/-- Zero, which has no digits. Its exponent is that of an empty integer part. -/
def zero : Digits := ⟨[], -1⟩

end Digits

def digitsOf (n : Nat) : List Nat := (Nat.toDigits 10 n).map fun c => c.toNat - 48

def trimZeros (digits : List Nat) : List Nat := (digits.reverse.dropWhile (· == 0)).reverse

def scaleTen (num den : Nat) (e : Int) : Nat × Nat :=
  if e < 0 then (num, den * Nat.pow 10 e.natAbs) else (num * Nat.pow 10 e.natAbs, den)

def scaleTwo (num : Nat) (e : Int) : Nat × Nat :=
  if e < 0 then (num, Nat.pow 2 e.natAbs) else (num * Nat.pow 2 e.natAbs, 1)

/-- Whether `10 ^ k ≤ num / den`. -/
private def reaches (num den : Nat) (k : Int) : Bool :=
  let (n, d) := scaleTen num den (-k)
  d ≤ n

/-- Counts up from `k` while the next power of ten is still reached. -/
private def climb (num den : Nat) : Nat → Int → Int
  | 0, k => k
  | steps + 1, k => if reaches num den (k + 1) then climb num den steps (k + 1) else k

/-- The exponent of the leading decimal digit of a positive fraction. The binary logarithm gives
    a start that is at most three too low. -/
def leadingExponent (num den : Nat) : Int :=
  let bits : Int := (num.log2 : Int) - den.log2
  climb num den 4 ((bits * 30103).fdiv 100000 - 2)

/-- The reals that round to a pattern, as numerators over one denominator. -/
structure Interval where
  low : Nat
  value : Nat
  high : Nat
  den : Nat
  closed : Bool

/-- The interval of `mantissa · 2 ^ exponent`. Below a power of two the patterns lie twice as
    dense, so the lower end is nearer there. -/
def interval (mantissa : Nat) (exponent : Int) : Interval :=
  let (unit, den) := scaleTwo 1 (exponent - 2)
  let below := if mantissa == Nat.pow 2 52 && exponent != -1074 then 1 else 2
  ⟨(4 * mantissa - below) * unit, 4 * mantissa * unit, (4 * mantissa + 2) * unit, den,
    mantissa % 2 == 0⟩

def Interval.holds (i : Interval) (point : Nat) (e : Int) : Bool :=
  let (p, s) := scaleTen point 1 e
  let x := p * i.den
  if i.closed then i.low * s ≤ x && x ≤ i.high * s else i.low * s < x && x < i.high * s

/-- Whether the quotient `n / d` is nearer to the number above it than to the one below it, a tie
    going to the even one. -/
def roundsUp (n d : Nat) : Bool := d < 2 * (n % d) || (2 * (n % d) == d && n / d % 2 == 1)

/-- The point of the grid of multiples of `10 ^ e` that lies in the interval and is nearest to
    its value, a tie going to the even point. -/
def Interval.gridPoint? (i : Interval) (e : Int) : Option Nat :=
  let (n, d) := scaleTen i.value i.den (-e)
  let down := n / d
  let up := down + 1
  let downHolds := i.holds down e
  let upHolds := i.holds up e
  if downHolds && upHolds then some (if roundsUp n d then up else down)
  else if downHolds then some down
  else if upHolds then some up
  else none

/-- Tries grids of more and more digits; `top` is the exponent of the value's leading digit. -/
private def firstGrid (i : Interval) (top : Int) : Nat → Nat → Option (Nat × Int)
  | 0, _ => none
  | tries + 1, count =>
    let e := top + 1 - count
    match i.gridPoint? e with
    | some point => some (point, e)
    | none => firstGrid i top tries (count + 1)

def digitsAt (point : Nat) (e : Int) : Digits :=
  let all := digitsOf point
  if point == 0 then .zero else ⟨trimZeros all, e + all.length - 1⟩

def shortest (mantissa : Nat) (exponent : Int) : Digits :=
  if mantissa == 0 then .zero
  else
    let i := interval mantissa exponent
    let top := leadingExponent i.value i.den
    match firstGrid i top 17 1 with
    | some (point, e) => digitsAt point e
    | none => .zero

/-- `mantissa · 2 ^ exponent` rounded to `count` significant digits, a tie going to the even
    last digit. -/
def rounded (count : Nat) (mantissa : Nat) (exponent : Int) : Digits :=
  if mantissa == 0 then .zero
  else
    let (num, den) := scaleTwo mantissa exponent
    let e := leadingExponent num den + 1 - count
    let (n, d) := scaleTen num den (-e)
    digitsAt (if roundsUp n d then n / d + 1 else n / d) e

end Keystroke.Decimal
