import Keystroke.Text.Bytes

set_option autoImplicit false

/-! # Commands

A command is a number of sixteen bits, of which a program line holds eleven. The table gives the
commands that have a name and what each does to the height of the stack. Commands below 256 are
those of a keystroke program; those above are written by the equation compiler. -/

namespace Keystroke

/-- A command by its number. -/
structure Command where
  code : UInt16
deriving DecidableEq, Repr

namespace Command

def maxCode : UInt16 := 0x7FF

def clearX : Command := ⟨0⟩
def enter : Command := ⟨1⟩
def swap : Command := ⟨2⟩
def rollDown : Command := ⟨3⟩
def negate : Command := ⟨4⟩
def divide : Command := ⟨5⟩
def multiply : Command := ⟨6⟩
def subtract : Command := ⟨7⟩
def add : Command := ⟨8⟩
def lastX : Command := ⟨9⟩
def sin : Command := ⟨10⟩
def cos : Command := ⟨11⟩
def tan : Command := ⟨12⟩
def asin : Command := ⟨13⟩
def acos : Command := ⟨14⟩
def atan : Command := ⟨15⟩
def log : Command := ⟨16⟩
def tenToX : Command := ⟨17⟩
def ln : Command := ⟨18⟩
def eToX : Command := ⟨19⟩
def sqrt : Command := ⟨20⟩
def square : Command := ⟨21⟩
def reciprocal : Command := ⟨22⟩
def yToX : Command := ⟨23⟩
def percent : Command := ⟨24⟩
def pi : Command := ⟨25⟩
def sto : Command := ⟨27⟩
def stoDivide : Command := ⟨28⟩
def stoMultiply : Command := ⟨29⟩
def stoSubtract : Command := ⟨30⟩
def stoAdd : Command := ⟨31⟩
def rcl : Command := ⟨32⟩
def rclDivide : Command := ⟨33⟩
def rclMultiply : Command := ⟨34⟩
def rclSubtract : Command := ⟨35⟩
def rclAdd : Command := ⟨36⟩
def null : Command := ⟨41⟩
def integerPart : Command := ⟨74⟩
def fractionPart : Command := ⟨75⟩
def round : Command := ⟨76⟩
def abs : Command := ⟨77⟩
def sign : Command := ⟨78⟩
def mod : Command := ⟨79⟩
def lbl : Command := ⟨92⟩
def rtn : Command := ⟨93⟩
def xeq : Command := ⟨97⟩
def mvar : Command := ⟨108⟩
def xEq0 : Command := ⟨114⟩
def xNe0 : Command := ⟨115⟩
def xLt0 : Command := ⟨116⟩
def xGt0 : Command := ⟨117⟩
def xLe0 : Command := ⟨118⟩
def xGe0 : Command := ⟨119⟩
def xEqY : Command := ⟨120⟩
def xNeY : Command := ⟨121⟩
def xLtY : Command := ⟨122⟩
def xGtY : Command := ⟨123⟩
def xLeY : Command := ⟨124⟩
def xGeY : Command := ⟨125⟩
def gto : Command := ⟨143⟩
def endLine : Command := ⟨144⟩
def number : Command := ⟨145⟩
def string : Command := ⟨146⟩
def func : Command := ⟨0x140⟩
def lsto : Command := ⟨0x141⟩
def drop : Command := ⟨0x142⟩
def gtol : Command := ⟨0x143⟩
def xeql : Command := ⟨0x144⟩
def xstr : Command := ⟨0x145⟩
def testEq : Command := ⟨0x146⟩
def testNe : Command := ⟨0x147⟩
def testLt : Command := ⟨0x148⟩
def testGt : Command := ⟨0x149⟩
def testLe : Command := ⟨0x14A⟩
def testGe : Command := ⟨0x14B⟩
def testAnd : Command := ⟨0x14C⟩
def testOr : Command := ⟨0x14D⟩
def testXor : Command := ⟨0x14E⟩
def testNot : Command := ⟨0x14F⟩
def ifTrue : Command := ⟨0x150⟩
/-- Pushes whether the named variable is being solved for. -/
def svar : Command := ⟨0x151⟩
/-- Replaces X by the element X of the named matrix. -/
def getItem : Command := ⟨0x152⟩
def least : Command := ⟨0x153⟩
def greatest : Command := ⟨0x154⟩

/-- The name of a command and its effect on the height of the stack. -/
structure Info where
  name : String
  effect : Int
deriving DecidableEq, Repr

/-- Marks an effect that depends on the program. -/
def varying : Int := -99

def table : List (Command × Info) := [
  (clearX, ⟨"CLX", 0⟩),
  (enter, ⟨"ENTER", 1⟩),
  (swap, ⟨"X<>Y", 0⟩),
  (rollDown, ⟨"R↓", 0⟩),
  (negate, ⟨"+/-", 0⟩),
  (divide, ⟨"÷", -1⟩),
  (multiply, ⟨"×", -1⟩),
  (subtract, ⟨"-", -1⟩),
  (add, ⟨"+", -1⟩),
  (lastX, ⟨"LASTX", 1⟩),
  (sin, ⟨"SIN", 0⟩),
  (cos, ⟨"COS", 0⟩),
  (tan, ⟨"TAN", 0⟩),
  (asin, ⟨"ASIN", 0⟩),
  (acos, ⟨"ACOS", 0⟩),
  (atan, ⟨"ATAN", 0⟩),
  (log, ⟨"LOG", 0⟩),
  (tenToX, ⟨"10^X", 0⟩),
  (ln, ⟨"LN", 0⟩),
  (eToX, ⟨"E^X", 0⟩),
  (sqrt, ⟨"SQRT", 0⟩),
  (square, ⟨"X^2", 0⟩),
  (reciprocal, ⟨"1/X", 0⟩),
  (yToX, ⟨"Y^X", -1⟩),
  (percent, ⟨"%", 0⟩),
  (pi, ⟨"PI", 1⟩),
  (sto, ⟨"STO", 0⟩),
  (stoDivide, ⟨"STO÷", 0⟩),
  (stoMultiply, ⟨"STO×", 0⟩),
  (stoSubtract, ⟨"STO-", 0⟩),
  (stoAdd, ⟨"STO+", 0⟩),
  (rcl, ⟨"RCL", 1⟩),
  (rclDivide, ⟨"RCL÷", 0⟩),
  (rclMultiply, ⟨"RCL×", 0⟩),
  (rclSubtract, ⟨"RCL-", 0⟩),
  (rclAdd, ⟨"RCL+", 0⟩),
  (null, ⟨"NULL", 0⟩),
  (integerPart, ⟨"IP", 0⟩),
  (fractionPart, ⟨"FP", 0⟩),
  (round, ⟨"RND", 0⟩),
  (abs, ⟨"ABS", 0⟩),
  (sign, ⟨"SIGN", 0⟩),
  (mod, ⟨"MOD", -1⟩),
  (lbl, ⟨"LBL", 0⟩),
  (rtn, ⟨"RTN", 0⟩),
  (xeq, ⟨"XEQ", varying⟩),
  (mvar, ⟨"MVAR", 0⟩),
  (xEq0, ⟨"X=0?", 0⟩),
  (xNe0, ⟨"X≠0?", 0⟩),
  (xLt0, ⟨"X<0?", 0⟩),
  (xGt0, ⟨"X>0?", 0⟩),
  (xLe0, ⟨"X≤0?", 0⟩),
  (xGe0, ⟨"X≥0?", 0⟩),
  (xEqY, ⟨"X=Y?", 0⟩),
  (xNeY, ⟨"X≠Y?", 0⟩),
  (xLtY, ⟨"X<Y?", 0⟩),
  (xGtY, ⟨"X>Y?", 0⟩),
  (xLeY, ⟨"X≤Y?", 0⟩),
  (xGeY, ⟨"X≥Y?", 0⟩),
  (gto, ⟨"GTO", 0⟩),
  (endLine, ⟨"END", 0⟩),
  (number, ⟨"NUMBER", 1⟩),
  (string, ⟨"STRING", 0⟩),
  (func, ⟨"FUNC", 0⟩),
  (lsto, ⟨"LSTO", 0⟩),
  (drop, ⟨"DROP", -1⟩),
  (gtol, ⟨"GTOL", 0⟩),
  (xeql, ⟨"XEQL", varying⟩),
  (xstr, ⟨"XSTR", 1⟩),
  (testEq, ⟨"GEN_EQ", -1⟩),
  (testNe, ⟨"GEN_NE", -1⟩),
  (testLt, ⟨"GEN_LT", -1⟩),
  (testGt, ⟨"GEN_GT", -1⟩),
  (testLe, ⟨"GEN_LE", -1⟩),
  (testGe, ⟨"GEN_GE", -1⟩),
  (testAnd, ⟨"GEN_AND", -1⟩),
  (testOr, ⟨"GEN_OR", -1⟩),
  (testXor, ⟨"GEN_XOR", -1⟩),
  (testNot, ⟨"GEN_NOT", 0⟩),
  (ifTrue, ⟨"IF_T", -1⟩),
  (svar, ⟨"SVAR", 1⟩),
  (getItem, ⟨"GETITEM", 0⟩),
  (least, ⟨"GEN_MIN", varying⟩),
  (greatest, ⟨"GEN_MAX", varying⟩)]

def info? (c : Command) : Option Info := table.lookup c

def isKnown (c : Command) : Bool := c.info?.isSome

private def upperHexDigit (n : Nat) : UInt8 := upperAscii (hexDigit n)

private def hexCode (c : Command) : Bytes :=
  let n := c.code.toNat
  let low := [n / 256 % 16, n / 16 % 16, n % 16].map upperHexDigit
  if n < 4096 then low else upperHexDigit (n / 4096) :: low

/-- The name of a command in a listing; a command without one is shown by its number. -/
def name (c : Command) : Bytes :=
  match c.info? with
  | some info => utf8 info.name
  | none => utf8 "CMD_" ++ c.hexCode

def effect (c : Command) : Int :=
  match c.info? with
  | some info => info.effect
  | none => 0

def isConditional (c : Command) : Bool :=
  (xEq0.code ≤ c.code && c.code ≤ xGeY.code) || c == ifTrue

end Command

end Keystroke
