import Keystroke.Decimal.Binary64
import Keystroke.Program.Command

set_option autoImplicit false

/-! # Program lines

A line is a command with an operand. The kind of the operand says which of its fields counts; the
others are kept as given until the line is stored, and are zero in a line that was read from a
program. Number lines also keep the spelling that the user typed. -/

namespace Keystroke

/-- The kinds of operand. -/
inductive ArgKind where
  | none
  /-- A number that is not negative. -/
  | num
  /-- A negative number, stored without its sign. -/
  | negNum
  | register
  /-- A name of at most 127 bytes. -/
  | text
  | indNum
  | indRegister
  | indText
  | letter
  | real
  /-- An entry of the label table, replaced by its name before a line is stored. -/
  | labelIndex
  /-- A text of at most 65535 bytes. -/
  | longText
  | equation
  | other (code : UInt8)
deriving DecidableEq, Repr

namespace ArgKind

def code : ArgKind → UInt8
  | none => 0
  | num => 1
  | negNum => 2
  | register => 3
  | text => 4
  | indNum => 5
  | indRegister => 6
  | indText => 7
  | letter => 8
  | real => 9
  | labelIndex => 10
  | longText => 11
  | equation => 12
  | other c => c

def ofCode (c : UInt8) : ArgKind :=
  if c = 0 then none
  else if c = 1 then num
  else if c = 2 then negNum
  else if c = 3 then register
  else if c = 4 then text
  else if c = 5 then indNum
  else if c = 6 then indRegister
  else if c = 7 then indText
  else if c = 8 then letter
  else if c = 9 then real
  else if c = 10 then labelIndex
  else if c = 11 then longText
  else if c = 12 then equation
  else other c

def name : ArgKind → Bytes
  | none => utf8 "NONE"
  | num => utf8 "NUM"
  | negNum => utf8 "NEG_NUM"
  | register => utf8 "STK"
  | text => utf8 "STR"
  | indNum => utf8 "IND_NUM"
  | indRegister => utf8 "IND_STK"
  | indText => utf8 "IND_STR"
  | letter => utf8 "LCLBL"
  | real => utf8 "DOUBLE"
  | labelIndex => utf8 "LBLINDEX"
  | longText => utf8 "XSTR"
  | equation => utf8 "EQN"
  | other c => utf8 "ARG_" ++ decimal c.toNat

end ArgKind

/-- The target of a jump that has not been looked up. -/
def targetUnknown : Int32 := -1

/-- The target of a jump whose label does not exist. -/
def targetNone : Int32 := -2

/-- The operand of a line. -/
structure Operand where
  kind : ArgKind := .none
  num : Int32 := 0
  register : UInt8 := 0
  letter : UInt8 := 0
  text : Bytes := []
  value : UInt64 := 0
  target : Int32 := targetUnknown
deriving DecidableEq, Repr

/-- A program line. -/
structure Instr where
  command : Command
  operand : Operand := {}
  /-- The spelling of a number line; empty when it is the usual one. -/
  numberText : Bytes := []
deriving DecidableEq, Repr

namespace Instr

def plain (c : Command) : Instr := ⟨c, {}, []⟩

def withNum (c : Command) (n : Int32) : Instr := ⟨c, { kind := .num, num := n }, []⟩

def withName (c : Command) (name : Bytes) : Instr := ⟨c, { kind := .text, text := name }, []⟩

def ofNumber (value : UInt64) (spelling : Bytes) : Instr :=
  ⟨.number, { kind := .real, value := value }, spelling⟩

end Instr

/-- Whether a line with this command and operand reserves four bytes for the target of its
    jump. -/
def hasJumpCache (c : Command) (kind : ArgKind) : Bool :=
  c == .gtol || c == .xeql
    || ((c == .gto || c == .xeq) && (kind == .num || kind == .register || kind == .letter))

end Keystroke
