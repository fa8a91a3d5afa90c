import Keystroke.Algebra.Lexer
import Keystroke.Algebra.Printer
import Keystroke.Program.Instr
import Keystroke.Program.Varint

set_option autoImplicit false

/-! # Lines as bytes

A line starts with two bytes: the low eight bits of the command, and the kind of the operand with
three more bits of the command and a mark for a number line that keeps its spelling. A jump has
four bytes for its target next, then comes the operand, and the spelling of a number ends with a
zero byte. Reading looks only at the bytes from the line on, and never past them; the offset of
the line enters the messages alone. -/

namespace Keystroke

/-! ## What can be wrong with a line -/

/-- The ways in which a line is invalid. -/
inductive InstrFault where
  | commandOutOfRange (c : Command)
  | negative (kind : ArgKind)
  | textTooLong (text : Bytes)
  | notStorable (kind : ArgKind)
  | headerOutOfRange (pc : Int)
  | truncated (pc : Int)
  | truncatedInteger (offset : Int)
  | notSupported (c : Command)
  /-- The machine does not know the command with this kind of operand. -/
  | badOperand (c : Command) (kind : ArgKind)
  /-- The end of the header is beyond the greatest number of a word. -/
  | unaddressable
deriving DecidableEq, Repr

namespace InstrFault

def message : InstrFault → Bytes
  | commandOutOfRange c => utf8 "command " ++ decimal c.code.toNat ++ utf8 " out of range"
  | negative kind => utf8 "negative " ++ kind.name ++ utf8 " argument"
  | textTooLong text => utf8 "string argument " ++ quoted text ++ utf8 " too long"
  | notStorable kind => utf8 "argument kind " ++ kind.name ++ utf8 " cannot be stored"
  | headerOutOfRange pc => utf8 "header out of range at " ++ decimalInt pc
  | truncated pc => utf8 "truncated instruction at " ++ decimalInt pc
  | truncatedInteger offset => utf8 "truncated integer at " ++ decimalInt offset
  | notSupported c => c.name ++ utf8 " not supported"
  | badOperand c kind => c.name ++ 32 :: kind.name
  | unaddressable => []

end InstrFault

/-! ## The first two bytes -/

/-- What the first two bytes of a line say. -/
structure Header where
  command : Command
  kind : ArgKind
  /-- A number line that keeps its spelling. -/
  spelled : Bool
deriving DecidableEq, Repr

namespace Header

def size : Nat := 2

def cacheSize : Nat := 4

def pack (h : Header) : Bytes :=
  let c := h.command.code
  let high := h.kind.code ||| ((c &&& 0x700) >>> 4).toUInt8
  [(c &&& 0xFF).toUInt8,
    if h.spelled && h.command == .number then high ||| 0x80 else high]

def ofBytes (low high : UInt8) : Header :=
  let c : Command := ⟨low.toUInt16 ||| ((high &&& 0x70).toUInt16 <<< 4)⟩
  ⟨c, ArgKind.ofCode (high &&& 0x0F), c == .number && high &&& 0x80 != 0⟩

def read? : Bytes → Option Header
  | low :: high :: _ => some (ofBytes low high)
  | _ => none

def cached (h : Header) : Bool := hasJumpCache h.command h.kind

end Header

/-- The bytes of a text from an offset on, if the offset is not negative. -/
def bytesFrom? (text : Bytes) (pc : Int) : Option Bytes :=
  if pc < 0 then none else some (text.drop pc.toNat)

/-- The header of the line at an offset; `none` when its two bytes are not there. -/
def headerAt? (text : Bytes) (pc : Int) : Option Header :=
  (bytesFrom? text pc).bind Header.read?

/-! ## Encoding -/

def maxTextLength : Nat := 127

def maxLongTextLength : Nat := 65535

def littleEndian : Nat → Nat → Bytes
  | 0, _ => []
  | width + 1, n => (n % 256).toUInt8 :: littleEndian width (n / 256)

def ofLittleEndian : Bytes → Nat
  | [] => 0
  | b :: rest => b.toNat + 256 * ofLittleEndian rest

/-- A byte of a number's spelling with the two points and the three exponent marks made one. -/
def foldNumberByte (b : UInt8) : UInt8 :=
  if b = 44 then 46 else if b = 101 || b = exponentByte then 69 else b

/-- Whether two spellings of a number differ only in the point and the exponent mark. -/
def sameNumberText (a b : Bytes) : Bool := a.map foldNumberByte == b.map foldNumberByte

namespace Instr

/-- The spelling that a number line keeps: none for zero and for the usual spelling. -/
def keptSpelling (value : UInt64) (text : Bytes) : Bytes :=
  if Binary64.toInt? value = some 0 || sameNumberText (canonicalNumber value) text then []
  else text

/-- The operand that a number is stored with: an integer when it fits in one. -/
def numberOperand (operand : Operand) : Operand :=
  match Binary64.toInt? operand.value with
  | some n =>
    if -2147483648 < n && n ≤ 2147483647 then
      if 0 ≤ n then { kind := .num, num := .ofInt n } else { kind := .negNum, num := .ofInt (-n) }
    else operand
  | none => operand

/-- The line in the form in which it is stored: a negative integer is stored without its sign, a
    number that is an integer as one, and a spelling only when it says something. -/
def normalize (i : Instr) : Instr :=
  if i.operand.kind = .num && i.operand.num < 0 then
    { i with operand := { i.operand with kind := .negNum, num := -i.operand.num } }
  else if i.command ≠ .number then { i with numberText := [] }
  else
    let operand := if i.operand.kind = .real then i.operand
      else { kind := .real, value := Binary64.ofInt i.operand.num.toInt }
    ⟨i.command, numberOperand operand, keptSpelling operand.value i.numberText⟩

/-- The bytes of a spelling, with the stored mark for an exponent and a zero byte behind. -/
def spellingBytes (text : Bytes) : Bytes :=
  text.map (fun b => if b = 69 || b = 101 then exponentByte else b) ++ [0]

def operandBytes (a : Operand) : Except InstrFault Bytes :=
  match a.kind with
  | .none => .ok []
  | .num | .negNum | .indNum | .equation =>
    if a.num < 0 then .error (.negative a.kind) else .ok (Varint.encode a.num.toUInt32)
  | .register | .indRegister => .ok [a.register]
  | .letter => .ok [a.letter]
  | .text | .indText =>
    if maxTextLength < a.text.length then .error (.textTooLong a.text)
    else .ok (a.text.length.toUInt8 :: a.text)
  | .real => .ok (littleEndian 8 a.value.toNat)
  | .longText =>
    let text := a.text.take maxLongTextLength
    .ok (littleEndian 2 text.length ++ text)
  | .labelIndex | .other _ => .error (.notStorable a.kind)

/-- The stored bytes of a line. The target of a jump starts out unknown. -/
def encode (i : Instr) : Except InstrFault Bytes :=
  if Command.maxCode < i.command.code then .error (.commandOutOfRange i.command)
  else do
    let i := i.normalize
    let header : Header := ⟨i.command, i.operand.kind, !i.numberText.isEmpty⟩
    let operand ← operandBytes i.operand
    let cache := if header.cached then [0xFF, 0xFF, 0xFF, 0xFF] else []
    let spelling := if i.command = .number && !i.numberText.isEmpty then spellingBytes i.numberText
      else []
    return header.pack ++ cache ++ operand ++ spelling

end Instr

/-! ## Decoding -/

/-- Why the front of a byte string is no line; the offset is counted from the line's start. -/
inductive Misread where
  | header
  | truncated
  | integer (offset : Nat)
deriving DecidableEq, Repr

def Misread.at_ (pc : Int) : Misread → InstrFault
  | header => .headerOutOfRange pc
  | truncated => .truncated pc
  | integer offset => .truncatedInteger (pc + offset)

/-- The number of bytes of an operand, `rest` being the bytes from it on and `start` their
    offset. The operand need not be all there. -/
def operandSize (kind : ArgKind) (start : Nat) (rest : Bytes) : Except Misread Nat :=
  match kind with
  | .num | .negNum | .indNum | .equation =>
    match Varint.decode rest with
    | some (_, used) => .ok used
    | none => .error (.integer start)
  | .register | .indRegister | .letter => .ok 1
  | .text | .indText =>
    match rest with
    | [] => .error .truncated
    | n :: _ => .ok (n.toNat + 1)
  | .real => .ok 8
  | .longText =>
    match rest with
    | low :: high :: _ => .ok (2 + ofLittleEndian [low, high])
    | _ => .error .truncated
  | .none | .labelIndex | .other _ => .ok 0

/-- The number of bytes up to a zero byte, that byte included; one too many when there is none. -/
def spellingSize (rest : Bytes) : Nat := (rest.takeWhile (· != 0)).length + 1

def lineSize (bytes : Bytes) : Except Misread Nat :=
  match Header.read? bytes with
  | none => .error .header
  | some h => do
    let start := if h.cached then Header.size + Header.cacheSize else Header.size
    if bytes.length < start then .error .truncated
    else
      let used ← operandSize h.kind start (bytes.drop start)
      let size := start + used
      let size := if h.spelled then size + spellingSize (bytes.drop size) else size
      if bytes.length < size then .error .truncated else .ok size

def targetBytes (target : Int32) : Bytes :=
  let n := target.toUInt32.toNat
  [(n / 16777216).toUInt8, (n / 65536).toUInt8, (n / 256).toUInt8, n.toUInt8]

def targetOf : Bytes → Int32
  | a :: b :: c :: d :: _ =>
    ((a.toUInt32 <<< 24) ||| (b.toUInt32 <<< 16) ||| (c.toUInt32 <<< 8) ||| d.toUInt32).toInt32
  | _ => targetUnknown

/-- The operand at the front of a byte string, which holds all of it. A negative number gets its
    sign back. -/
def readOperand (kind : ArgKind) (rest : Bytes) : Operand :=
  match kind with
  | .num | .indNum | .equation =>
    { kind := kind, num := ((Varint.decode rest).map (·.1.toInt32)).getD 0 }
  | .negNum => { kind := .num, num := -((Varint.decode rest).map (·.1.toInt32)).getD 0 }
  | .register | .indRegister => { kind := kind, register := rest.headD 0 }
  | .letter => { kind := kind, letter := rest.headD 0 }
  | .text | .indText => { kind := kind, text := rest.tail.take (rest.headD 0).toNat }
  | .real => { kind := kind, value := (ofLittleEndian (rest.take 8)).toUInt64 }
  | .longText => { kind := kind, text := (rest.drop 2).take (ofLittleEndian (rest.take 2)) }
  | .none | .labelIndex | .other _ => { kind := kind }

/-- The spelling of a number, read up to its zero byte. -/
def readSpelling (rest : Bytes) : Bytes :=
  (rest.takeWhile (· != 0)).map fun b => if b = exponentByte then 69 else b

/-- The line at the front of a byte string and its size. A number line always reads as a binary64
    number. -/
def decodeLine (bytes : Bytes) : Except Misread (Instr × Nat) := do
  let size ← lineSize bytes
  match Header.read? bytes with
  | none => .error .header
  | some h =>
    let start := if h.cached then Header.size + Header.cacheSize else Header.size
    let operand := readOperand h.kind (bytes.drop start)
    let operand := if h.cached then { operand with target := targetOf (bytes.drop Header.size) }
      else operand
    if h.command = .number then
      let used := (operandSize h.kind start (bytes.drop start)).toOption.getD 0
      let text := if h.spelled then readSpelling (bytes.drop (start + used)) else []
      let operand := if operand.kind = .real then operand
        else { kind := .real, value := Binary64.ofInt operand.num.toInt }
      return (⟨h.command, operand, text⟩, size)
    else return (⟨h.command, operand, []⟩, size)

/-- The greatest offset behind which the end of a header is still a number in a signed word of 64
    bits. -/
def maxOffset : Int := 9223372036854775805

def lineSizeAt (text : Bytes) (pc : Int) : Except InstrFault Nat :=
  if maxOffset < pc then .error .unaddressable
  else match bytesFrom? text pc with
  | none => .error (.headerOutOfRange pc)
  | some bytes => (lineSize bytes).mapError (·.at_ pc)

def decodeAt (text : Bytes) (pc : Int) : Except InstrFault (Instr × Nat) :=
  if maxOffset < pc then .error .unaddressable
  else match bytesFrom? text pc with
  | none => .error (.headerOutOfRange pc)
  | some bytes => (decodeLine bytes).mapError (·.at_ pc)

/-- The lines of a program. Each has at least two bytes, so the number of bytes bounds them. -/
def decodeLines (text : Bytes) : Except InstrFault (List Instr) :=
  go text.length 0 text
where
  go : Nat → Nat → Bytes → Except InstrFault (List Instr)
    | _, _, [] => .ok []
    | 0, _, _ => .ok []
    | count + 1, pc, rest => do
      let (i, size) ← (decodeLine rest).mapError (·.at_ pc)
      let is ← go count (pc + size) (rest.drop size)
      return i :: is

end Keystroke
