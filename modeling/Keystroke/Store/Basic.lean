import Keystroke.Error
import Keystroke.Store.Buffer

set_option autoImplicit false

/-! # The program store

The store owns the programs of the user, in the order of memory, and the programs compiled from
equations, in slots that are used again when they are freed. It counts the memory that their
buffers occupy and refuses to go over its limit. Operations run in `Edit`: one that fails leaves
the store that it had made so far, so that what a failure leaves behind can be stated. -/

namespace Keystroke

/-- The settings of a store and of the session around it. -/
structure Options where
  /-- Bytes of memory; no limit unless positive. -/
  memoryLimit : Int := 0
  initialCapacity : Int := 64
  maxDepth : Int := 1024
  /-- Whether a label that is a stack register answers only to its own name. -/
  strictLabels : Bool := false
deriving DecidableEq, Repr

/-- The settings with the usual capacity and depth in place of those that are not positive. -/
def Options.normalize (o : Options) : Options :=
  { o with
    initialCapacity := if o.initialCapacity ≤ 0 then 64 else o.initialCapacity
    maxDepth := if o.maxDepth ≤ 0 then 1024 else o.maxDepth }

/-- A program in the store. -/
structure Program where
  buffer : Buffer
  /-- Whether the targets of all its jumps are known to be unknown. -/
  cachesClear : Bool := false
  refs : Nat := 0
  generated : Bool := false
deriving DecidableEq, Repr

/-- An entry of the label table: a global label, or the END of a program when there is no
    name. -/
structure Label where
  name : Option Bytes
  program : Nat
  pc : Int
deriving DecidableEq, Repr

/-- The program store. -/
structure Store where
  options : Options
  programs : List Program := []
  equations : List (Option Program) := []
  labels : List Label := []
  /-- The capacity of all buffers together, kept in a word. -/
  used : Int := 0
  loading : Nat := 0
  /-- The number of open brackets in which compiled programs may be edited. -/
  generatedEdits : Nat := 0
  /-- How many edits of user programs have been made outside both. -/
  edits : Nat := 0
deriving DecidableEq, Repr

/-- An operation on the store that may fail. -/
abbrev Edit := EStateM Error Store

def Edit.ofExcept {α : Type} (r : Except Error α) : Edit α := fun s =>
  match r with
  | .ok a => .ok a s
  | .error e => .error e s

def endBytes : Bytes := [0x90, 0x00]

namespace Store

/-! ## Programs -/

def at? {α : Type} (xs : List α) (i : Int) : Option α :=
  if i < 0 then none else xs[i.toNat]?

def program? (s : Store) : ProgramRef → Option Program
  | .user i => at? s.programs i
  | .equation i => (at? s.equations i).join
  | _ => none

def setProgram (s : Store) (ref : ProgramRef) (p : Program) : Store :=
  match ref with
  | .user i => { s with programs := s.programs.set i.toNat p }
  | .equation i => { s with equations := s.equations.set i.toNat (some p) }
  | _ => s

def getProgram (ref : ProgramRef) : Edit Program := fun s =>
  match s.program? ref with
  | some p => .ok p s
  | none => .error (.invalidProgram ref) s

def text (s : Store) (ref : ProgramRef) : Except Error Bytes :=
  match s.program? ref with
  | some p => .ok p.buffer.text
  | none => .error (.invalidProgram ref)

def size (s : Store) (ref : ProgramRef) : Nat :=
  match s.program? ref with
  | some p => p.buffer.text.length
  | none => 0

def isGenerated (s : Store) (ref : ProgramRef) : Bool :=
  match s.program? ref with
  | some p => p.generated
  | none => false

def refCount (s : Store) (ref : ProgramRef) : Nat :=
  match s.program? ref with
  | some p => p.refs
  | none => 0

def retain (s : Store) (ref : ProgramRef) : Store :=
  match s.program? ref with
  | some p => s.setProgram ref { p with refs := p.refs + 1 }
  | none => s

def release (s : Store) (ref : ProgramRef) : Store :=
  match s.program? ref with
  | some p => s.setProgram ref { p with refs := p.refs - 1 }
  | none => s

def lines (s : Store) (ref : ProgramRef) : Except Error (List Instr) := do
  let text ← s.text ref
  (decodeLines text).mapError .invalidInstr

def listing (s : Store) (ref : ProgramRef) : Except Error Bytes := do
  let lines ← s.lines ref
  return programListing (s.size ref) lines

/-! ## Memory -/

/-- A number in a signed word of 64 bits, where it wraps around. -/
def inWord (n : Int) : Int := n.bmod 0x10000000000000000

/-- The greatest capacity that a buffer can have. -/
def maxCapacity : Nat := 0x1000000000000

/-- Takes memory, if the limit allows it. The sum is formed in a word before it is compared. -/
def charge? (s : Store) (n : Nat) : Option Store :=
  let total := inWord (s.used + n)
  if 0 < s.options.memoryLimit && s.options.memoryLimit < total then none
  else some { s with used := total }

/-- Takes memory for a capacity, or for the least one that will do when the first is refused.
    `held` of it is in use already. A capacity that was granted and cannot be had is a crash. -/
def allocate (wanted least held : Nat) : Edit Nat := fun s =>
  match s.charge? (wanted - held) with
  | some s => if maxCapacity < wanted then .error .outOfBounds s else .ok wanted s
  | none =>
    match s.charge? (least - held) with
    | some s => .ok least s
    | none => .error .insufficientMemory s

def newBuffer (size : Nat) : Edit Buffer := do
  let options := (← get).options
  let capacity ← allocate (max size options.initialCapacity.toNat) size 0
  return .empty capacity

/-- A buffer with room for `extra` more bytes. Capacity doubles when the limit allows it. -/
def reserve (b : Buffer) (extra : Nat) : Edit Buffer := do
  let need := b.text.length + extra
  if need ≤ b.capacity then return b
  else
    let options := (← get).options
    let wanted := max (max (2 * b.capacity) need) options.initialCapacity.toNat
    let capacity ← allocate wanted need b.capacity
    return b.grow capacity

def free (b : Buffer) : Edit Unit :=
  modify fun s => { s with used := inWord (s.used - b.capacity) }

def emptyProgram (generated : Bool) : Edit Program := do
  let b ← newBuffer endBytes.length
  return { buffer := b.append endBytes, generated := generated }

end Store

end Keystroke
