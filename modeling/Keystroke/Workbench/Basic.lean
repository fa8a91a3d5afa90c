import Keystroke.Machine.Run
import Keystroke.Project.Manifest
import Keystroke.Snapshot.Session

set_option autoImplicit false

/-! # The workbench

A session over a project: the equations that have been entered, each once, and the variables, with
the file in which they are kept. What is printed is gathered beside them. -/

namespace Keystroke

/-- A session over a project. -/
structure Workbench where
  manifest : Manifest
  session : Session
  equations : List Equation := []
  files : Files
  output : Bytes := []

/-- An operation on a workbench that may fail. -/
abbrev Work := EStateM Error Workbench

namespace Workbench

def printLine (line : Bytes) : Work Unit := modify fun w =>
  { w with output := w.output ++ line ++ [10] }

def onSession {α : Type} (op : Machine α) : Work α := fun w =>
  match op w.session with
  | .ok a s => .ok a { w with session := s }
  | .error e s => .error e { w with session := s }

def ofExcept {α : Type} (r : Except Error α) : Work α := fun w =>
  match r with
  | .ok a => .ok a w
  | .error e => .error e w

/-- Prints the error of an operation that fails, unless it did not come to an end at all. -/
def report (op : Work Unit) : Work Unit := fun w =>
  match op w with
  | .ok _ w => .ok () w
  | .error e w =>
    if e.isCrash then .error e w
    else printLine (utf8 "error: " ++ e.message) w

/-! ## The catalogue -/

/-- Enters an equation, unless one with the same fingerprint is there already, and gives its place
    in the catalogue. -/
def add (e : Equation) : Work Nat := do
  let w ← get
  match w.equations.findIdx? fun known => known.fingerprint = e.fingerprint with
  | some i => return i
  | none =>
    let e ← onSession (Session.edit (e.compile .standard))
    modify fun w => { w with equations := w.equations ++ [e] }
    return w.equations.length

def enter (source : Bytes) : Work Nat := do
  let e ← ofExcept ((Equation.parse (← get).manifest.compat source).mapError Error.parse)
  add e

def promote (i : Nat) : Work Unit := modify fun w =>
  match w.equations[i]? with
  | none => w
  | some e => { w with equations := w.equations.eraseIdx i ++ [e] }

/-- Enters equations of files; those that cannot be compiled are left out. -/
def addAll : List FileEquation → Work Unit
  | [] => pure ()
  | e :: rest => fun w =>
    match add e.equation w with
    | .ok _ w => addAll rest w
    | .error failure w => if failure.isCrash then .error failure w else addAll rest w

/-! ## Opening and saving -/

/-- Restores what the project has kept of its session; a file that is missing is no fault. -/
def restoreState : Work Unit := do
  let w ← get
  match w.manifest.statePath? with
  | none => return
  | some path =>
    match w.files.read path with
    | .error (.missing _) => return
    | .error fault => throw (.snapshotFile fault)
    | .ok bytes =>
      let snap ← ofExcept (Snapshot.decode bytes)
      let equations ← onSession (snap.restore .standard)
      modify fun w => { w with equations := equations }

def ofManifest (manifest : Manifest) (files : Files) : Except Error Workbench := do
  let session ← Session.new manifest.options
  let session := { session with stepLimit := manifest.stepLimit }
  let opening : Work Unit := do
    restoreState
    addAll (manifest.loadEquations files).1
  match opening { manifest := manifest, session := session, files := files } with
  | .error e _ => .error e
  | .ok _ w => .ok w

def save : Work Unit := do
  let w ← get
  match w.manifest.statePath? with
  | none => return
  | some path =>
    let snap ← ofExcept (w.session.capture w.equations)
    let files ← ofExcept ((w.files.write path snap.encode).mapError Error.snapshotFile)
    set { w with files := files }

/-! ## Variables -/

def cutAt? (b : UInt8) (text : Bytes) : Option (Bytes × Bytes) :=
  let before := text.takeWhile (· ≠ b)
  match text.drop before.length with
  | [] => none
  | _ :: behind => some (before, behind)

def readAssignment (text : Bytes) : Except Error (Bytes × Float) :=
  match cutAt? (ascii '=') text with
  | none | some ([], _) => .error (.badAssignment text)
  | some (name, value) =>
    match Decimal.read value with
    | .error e => .error (.badValue name value e)
    | .ok bits => .ok (name, Float.ofBits bits)

def assignAll : List Bytes → Work Unit
  | [] => pure ()
  | text :: rest => do
    let (name, x) ← ofExcept (readAssignment text)
    onSession (modify fun s => { s with vars := s.vars.store name x })
    assignAll rest

/-! ## Equations -/

/-- What is done with an equation. -/
structure Action where
  isolate : Bytes := []
  disasm : Bool := false
  eval : Bool := false

def valueText (x : Float) : Bytes := Decimal.format .twelve x

def valueLine (what : Bytes) (x : Float) : Bytes := what ++ utf8 " = " ++ valueText x

def describe (e : Equation) : Work Unit := do
  printLine e.print
  if !e.parameters.isEmpty then
    printLine (utf8 "parameters: " ++ joinWith [32] e.parameters)
  printLine (utf8 "fingerprint: " ++ hex e.fingerprint)

def evaluateFor (ref : ProgramRef) (name : Bytes) : Machine Float := fun s =>
  match Session.evaluate ref [0] false { s with solvingFor := name } with
  | .ok x s => .ok x { s with solvingFor := [] }
  | .error e s => .error e { s with solvingFor := [] }

/-- Runs a program of an equation. The value of a solution is stored in its variable. -/
def evaluate (e : Equation) (ref : ProgramRef) (name : Bytes) : Work Unit := do
  let x ← onSession (evaluateFor ref name)
  if name.isEmpty then printLine (valueLine e.print x)
  else
    onSession (modify fun s => { s with vars := s.vars.store name x })
    printLine (valueLine name x)

def solve (i : Nat) (e : Equation) (name : Bytes) : Work ProgramRef := do
  let tree ← ofExcept ((e.tree.isolate name).mapError Error.isolation)
  let (ref, e) ← onSession (Session.edit (e.solveFor name))
  modify fun w => { w with equations := w.equations.set i e }
  printLine (name ++ utf8 " = " ++ tree.print e.compat)
  return ref

/-- Does something with an equation of the catalogue; with nothing to do it is described. -/
def perform (i : Nat) (action : Action) : Work Unit := do
  match (← get).equations[i]? with
  | none => return
  | some e =>
    let ref ← if action.isolate.isEmpty then pure e.program else solve i e action.isolate
    if action.disasm then
      printLine (← ofExcept ((← get).session.store.listing ref))
    if action.eval then evaluate e ref action.isolate
    else if action.isolate.isEmpty && !action.disasm then describe e

def runOnce (source : Bytes) (assignments : List Bytes) (action : Action) : Work Unit := do
  assignAll assignments
  perform (← enter source) action

end Workbench

end Keystroke
