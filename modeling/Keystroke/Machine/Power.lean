import Keystroke.Decimal.Binary64

set_option autoImplicit false

/-! # Powers

A power with a whole exponent is formed by repeated squaring of the base's significand, with the
exponent of two beside it. Each product is rounded, so that the last digits depend on the order,
which is part of what the machine computes. -/

namespace Keystroke

/-- A number as a significand and an exponent of two. -/
structure Scaled where
  significand : Float
  exponent : Int

namespace Scaled

/-- A number with its significand from one half up to one. -/
def ofFloat (x : Float) : Scaled :=
  let (f, e) := x.frExp
  ⟨f, e⟩

def toFloat (s : Scaled) : Float := s.significand.scaleB s.exponent

def mul (a b : Scaled) : Scaled := ⟨a.significand * b.significand, a.exponent + b.exponent⟩

/-- The square, with a significand of one half at least. -/
def square (s : Scaled) : Scaled :=
  let f := s.significand * s.significand
  if f < 0.5 then ⟨f + f, 2 * s.exponent - 1⟩ else ⟨f, 2 * s.exponent⟩

def inverse (s : Scaled) : Scaled := ⟨1 / s.significand, -s.exponent⟩

/-- Whether the exponent is so great or so small that the power is infinite or zero. -/
def isExtreme (s : Scaled) : Bool := s.exponent < -4096 || 4096 < s.exponent

/-- `a` times a power of the base. The first argument bounds the binary digits of the exponent. -/
def timesPower : Nat → Nat → Scaled → Scaled → Scaled
  | 0, _, a, _ => a
  | digits + 1, n, a, base =>
    if n = 0 then a
    else if base.isExtreme then { a with exponent := a.exponent + base.exponent }
    else timesPower digits (n / 2) (if n % 2 = 1 then a.mul base else a) base.square

end Scaled

/-- The exponents from which on a power is infinite or zero, unless the base is a unit. -/
def exponentLimit : Nat := 0x8000000000000000

def wholePower (x : Float) (negative : Bool) (n : Nat) : Float :=
  let p := Scaled.timesPower 64 n ⟨1, 0⟩ (.ofFloat x)
  (if negative then p.inverse else p).toFloat

/-- The power `x` to the `y`. -/
def power (x y : Float) : Float :=
  if x == 0 || !x.isFinite || !y.isFinite then x.pow y
  else if y == 0.5 then x.sqrt
  else if y == -0.5 then 1 / x.sqrt
  else if y.floor == y then
    match Binary64.toInt? y.toBits with
    | some n => if n.natAbs < exponentLimit then wholePower x (n < 0) n.natAbs else x.pow y
    | none => x.pow y
  else x.pow y

end Keystroke
