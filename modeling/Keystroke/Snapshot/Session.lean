import Keystroke.Compile.Equation
import Keystroke.Machine.Session
import Keystroke.Snapshot.Reader

set_option autoImplicit false

/-! # Saving and restoring sessions

Programs are saved line by line with every cached jump target unknown. They are restored into a
session that has only the empty program; equations are read and compiled again, and each has to
have the fingerprint it was saved with. -/

namespace Keystroke

/-! ## Saving -/

def Store.canonicalText (s : Store) (ref : ProgramRef) : Except Error Bytes :=
  let code := do
    let lines ← s.lines ref
    let pieces ← (lines.mapM Instr.encode).mapError Error.invalidInstr
    return pieces.flatten
  code.mapError fun e => if e.isCrash then e else .capturing ref e

namespace Equation

def saved (e : Equation) : SavedEquation := ⟨e.fingerprint, e.source, e.compat⟩

end Equation

/-- What is saved of the elements of a matrix: nothing when there are none. -/
def savedElements (elements : List Float) : Option (List Float) :=
  if elements.isEmpty then none else some elements

def Session.capture (s : Session) (equations : List Equation) : Except Error Snapshot := do
  let programs ← (List.range s.store.programs.length).mapM fun (i : Nat) =>
    s.store.canonicalText (.user i)
  return {
    programs := programs
    equations := equations.map Equation.saved
    reals := s.vars.reals
    matrices := s.vars.matrices.map fun (name, elements) => (name, savedElements elements) }

/-! ## Restoring programs -/

/-- The line before which a program is loaded: where the next line goes. -/
abbrev LoadPoint := ProgramRef × Int

def inProgram {α : Type} (n : Nat) (op : Edit α) : Edit α := fun s =>
  match op s with
  | .ok a s => .ok a s
  | .error e s => .error (if e.isCrash then e else .inProgram n e) s

/-- Loads the lines of a program; an END that is the last line is left out. The first argument
    bounds the lines, of which each takes a byte or more. -/
def loadLines (code : Bytes) : Nat → Nat → LoadPoint → Edit LoadPoint
  | 0, _, p => pure p
  | bound + 1, offset, p => do
    if code.length ≤ offset then return p
    let (line, size) ← Edit.ofExcept ((decodeAt code offset).mapError .ofInstrFault)
    if line.command = .endLine && offset + size = code.length then return p
    let line := { line with operand := { line.operand with target := targetUnknown } }
    let p ← Store.insertAfter p.1 p.2 line
    loadLines code bound (offset + size) p

/-- Loads programs, an END between each two. `n` is the number of the first. -/
def loadPrograms : Nat → List Bytes → LoadPoint → Edit Unit
  | _, [], _ => pure ()
  | n, [code], p => do
    let _ ← inProgram n (loadLines code code.length 0 p)
  | n, code :: rest, p => do
    let p ← inProgram n (loadLines code code.length 0 p)
    let p ← inProgram n (Store.insertAfter p.1 p.2 (.plain .endLine))
    loadPrograms (n + 1) rest p

/-- Loads programs; the label table is made anew when they are there, or when loading failed. -/
def bulkLoad (programs : List Bytes) : Edit Unit := do
  Store.beginBulkLoad
  fun s =>
    match loadPrograms 0 programs (.user 0, -1) s with
    | .ok _ s => Store.endBulkLoad s
    | .error e s =>
      match Store.endBulkLoad s with
      | .ok _ s => .error e s
      | .error crash s => .error crash s

/-! ## Restoring sessions -/

def Session.isEmpty (s : Session) : Bool :=
  s.store.programs.length = 1 &&
    match s.store.lines (.user 0) with
    | .ok lines => lines.length = 1
    | .error _ => false

def SavedEquation.restore (names : NameTable) (saved : SavedEquation) : Edit Equation := do
  let e ← Edit.ofExcept ((Equation.parse saved.compat saved.source).mapError Error.parse)
  if e.fingerprint ≠ saved.fingerprint then
    throw (.fingerprintMismatch saved.source e.fingerprint saved.fingerprint)
  e.compile names

/-- Restores equations; `done` are those that are there already. All are freed when one fails. -/
def restoreEquations (names : NameTable) : List SavedEquation → List Equation →
    Edit (List Equation)
  | [], done => pure done
  | saved :: rest, done => fun s =>
    match saved.restore names s with
    | .ok e s => restoreEquations names rest (done ++ [e]) s
    | .error e s =>
      if e.isCrash then .error e s
      else .error (.inEquation done.length e) (Equation.freeAll done s)

def Variables.restore (snap : Snapshot) (v : Variables) : Variables :=
  let v := snap.reals.foldl (fun v (name, x) => v.store name x) v
  snap.matrices.foldl (fun v (name, elements) => v.setMatrix name (elements.getD [])) v

def Snapshot.restore (names : NameTable) (snap : Snapshot) : Machine (List Equation) := do
  Machine.ofExcept snap.checkVersion
  if !(← get).isEmpty then throw .sessionNotEmpty
  Session.edit (bulkLoad snap.programs)
  Session.clearReturns
  modify fun s => { s with vars := s.vars.restore snap }
  Session.edit (restoreEquations names snap.equations [])

end Keystroke
