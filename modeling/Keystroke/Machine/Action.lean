import Keystroke.Error
import Keystroke.Machine.Power

set_option autoImplicit false

/-! # What commands do

The commands that the machine knows, sorted by what they do to it, and the arithmetic behind
them. A result that is not a number is invalid data, and an infinite one is out of range. -/

namespace Keystroke

/-- Operations on two numbers. -/
inductive ArithOp where
  | add
  | sub
  | mul
  | div
  | pow
  | mod
  | percent
deriving DecidableEq, Repr

/-- Operations on one number. -/
inductive RealFn where
  | negate
  | sin
  | cos
  | tan
  | asin
  | acos
  | atan
  | log
  | tenToX
  | ln
  | eToX
  | sqrt
  | square
  | reciprocal
  | integerPart
  | fractionPart
  | abs
  | sign
deriving DecidableEq, Repr

/-- Comparisons of two numbers. -/
inductive Comparison where
  | eq
  | ne
  | lt
  | gt
  | le
  | ge
deriving DecidableEq, Repr

/-- Connectives of two truth values. -/
inductive Connective where
  | and
  | or
  | xor
deriving DecidableEq, Repr

/-- What a command does. -/
inductive Action where
  | number
  | nothing
  | clearX
  | enter
  | swap
  | rollDown
  | drop
  | lastX
  | pi
  | arith (op : ArithOp)
  | real (fn : RealFn)
  | store (op : Option ArithOp)
  | fetch (op : Option ArithOp)
  | storeLocal
  | func
  | leave
  | jump (call : Bool)
  /-- Skips the next line unless X compares with zero so. -/
  | testZero (c : Comparison)
  /-- Skips the next line unless X compares with Y so. -/
  | testPair (c : Comparison)
  | compare (c : Comparison)
  | connect (c : Connective)
  | invert
  | skipUnless
  | solving
  | item
  | extremum (greatest : Bool)
deriving DecidableEq, Repr

namespace Command

def actions : List (Command × Action) := [
  (number, .number), (lbl, .nothing), (null, .nothing), (mvar, .nothing), (clearX, .clearX),
  (enter, .enter), (swap, .swap), (rollDown, .rollDown), (drop, .drop), (lastX, .lastX),
  (pi, .pi), (add, .arith .add), (subtract, .arith .sub), (multiply, .arith .mul),
  (divide, .arith .div), (yToX, .arith .pow), (mod, .arith .mod), (percent, .arith .percent),
  (negate, .real .negate), (sin, .real .sin), (cos, .real .cos), (tan, .real .tan),
  (asin, .real .asin), (acos, .real .acos), (atan, .real .atan), (log, .real .log),
  (tenToX, .real .tenToX), (ln, .real .ln), (eToX, .real .eToX), (sqrt, .real .sqrt),
  (square, .real .square), (reciprocal, .real .reciprocal), (integerPart, .real .integerPart),
  (fractionPart, .real .fractionPart), (abs, .real .abs), (sign, .real .sign),
  (sto, .store none), (stoAdd, .store (some .add)), (stoSubtract, .store (some .sub)),
  (stoMultiply, .store (some .mul)), (stoDivide, .store (some .div)), (rcl, .fetch none),
  (rclAdd, .fetch (some .add)), (rclSubtract, .fetch (some .sub)),
  (rclMultiply, .fetch (some .mul)), (rclDivide, .fetch (some .div)), (lsto, .storeLocal),
  (func, .func), (rtn, .leave), (endLine, .leave), (gto, .jump false), (gtol, .jump false),
  (xeq, .jump true), (xeql, .jump true), (xEq0, .testZero .eq), (xNe0, .testZero .ne),
  (xLt0, .testZero .lt), (xGt0, .testZero .gt), (xLe0, .testZero .le), (xGe0, .testZero .ge),
  (xEqY, .testPair .eq), (xNeY, .testPair .ne), (xLtY, .testPair .lt), (xGtY, .testPair .gt),
  (xLeY, .testPair .le), (xGeY, .testPair .ge), (testEq, .compare .eq), (testNe, .compare .ne),
  (testLt, .compare .lt), (testGt, .compare .gt), (testLe, .compare .le), (testGe, .compare .ge),
  (testAnd, .connect .and), (testOr, .connect .or), (testXor, .connect .xor), (testNot, .invert),
  (ifTrue, .skipUnless), (svar, .solving), (getItem, .item), (least, .extremum false),
  (greatest, .extremum true)]

def action? (c : Command) : Option Action := actions.lookup c

end Command

/-! ## Arithmetic -/

def checked (x : Float) : Except Error Float :=
  if x.isNaN then .error .invalidData
  else if x.isInf then .error .outOfRange
  else .ok x

def truncated (x : Float) : Float := if x < 0 then x.ceil else x.floor

/-- `y op x`. -/
def ArithOp.eval (op : ArithOp) (y x : Float) : Except Error Float :=
  match op with
  | add => checked (y + x)
  | sub => checked (y - x)
  | mul => checked (y * x)
  | div => if x == 0 then .error .divideByZero else checked (y / x)
  | pow => checked (power y x)
  | mod => if x == 0 then .ok y else checked (y - x * (y / x).floor)
  | percent => checked (y * x / 100)

def RealFn.eval (fn : RealFn) (x : Float) : Except Error Float :=
  match fn with
  | negate => checked (-x)
  | sin => checked x.sin
  | cos => checked x.cos
  | tan => checked x.tan
  | asin => checked x.asin
  | acos => checked x.acos
  | atan => checked x.atan
  | log => checked x.log10
  | tenToX => checked (power 10 x)
  | ln => checked x.log
  | eToX => checked x.exp
  | sqrt => checked x.sqrt
  | square => checked (x * x)
  | reciprocal => if x == 0 then .error .divideByZero else checked (1 / x)
  | integerPart => checked (truncated x)
  | fractionPart => checked (x - truncated x)
  | abs => checked x.abs
  | sign => checked (if 0 < x then 1 else if x < 0 then -1 else 0)

/-- Whether `a` compares with `b` so. -/
def Comparison.holds (c : Comparison) (a b : Float) : Bool :=
  match c with
  | eq => a == b
  | ne => a != b
  | lt => a < b
  | gt => b < a
  | le => a ≤ b
  | ge => b ≤ a

def Connective.holds (c : Connective) (a b : Bool) : Bool :=
  match c with
  | and => a && b
  | or => a || b
  | xor => a != b

def truth (b : Bool) : Float := if b then 1 else 0

/-- The greatest or the least of some numbers, `best` being the one so far. -/
def extremumFrom (greatest : Bool) (best : Float) : List Float → Float
  | [] => best
  | x :: rest =>
    extremumFrom greatest (if greatest then (if best < x then x else best)
      else (if x < best then x else best)) rest

/-- The integer part of a number as an index of 64 bits; a number outside their range, or none at
    all, gives the least one. -/
def indexOf (x : Float) : Int :=
  match Binary64.toInt? (truncated x).toBits with
  | some n => if -9223372036854775808 ≤ n && n ≤ 9223372036854775807 then n
      else -9223372036854775808
  | none => -9223372036854775808

end Keystroke
