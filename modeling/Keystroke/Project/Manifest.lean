import Keystroke.Project.EquationFile
import Keystroke.Project.Files
import Keystroke.Toml.Reader

set_option autoImplicit false

/-! # Project files

A project is a directory with a configuration file. It names the files of equations, the file in
which the session is kept, and the limits of the engine. -/

namespace Keystroke

/-- The configuration of a project. -/
structure Manifest where
  name : Bytes := []
  equations : List Bytes := []
  /-- The file in which the session is kept; empty when it is not kept. -/
  state : Bytes := []
  compat : Bool := false
  maxDepth : Int := 0
  strictLabels : Bool := false
  /-- The greatest number of steps of a run; no limit when zero. -/
  stepLimit : Int := 0
  memoryLimit : Int := 0
  initialCapacity : Int := 0
  verbosity : Int := 0
  /-- The file for messages; empty when they are not written to one. -/
  logFile : Bytes := []
  dir : Bytes := []

namespace Manifest

def fileName : Bytes := utf8 "rpncore.toml"

def withDefaults (m : Manifest) : Manifest :=
  let options := (Options.mk 0 m.initialCapacity m.maxDepth false).normalize
  { m with
    maxDepth := options.maxDepth
    initialCapacity := options.initialCapacity
    stepLimit := max 0 m.stepLimit }

def default : Manifest := ({} : Manifest).withDefaults

/-! ## From a document -/

def text? : Toml.Value → Option Bytes
  | .string s => some s
  | _ => none

def integer? : Toml.Value → Option Int
  | .integer n => some n
  | _ => none

def boolean? : Toml.Value → Option Bool
  | .boolean b => some b
  | _ => none

def texts? : Toml.Value → Option (List Bytes)
  | .array items => items.mapM text?
  | _ => none

def table? : Toml.Value → Option Toml.Table
  | .table entries => some entries
  | _ => none

/-- The value of a key; a missing one is empty, and one of another type is refused. Of spellings of
    the key that differ in the case of letters the last one counts. -/
def entry {α : Type} (t : Toml.Table) (key : String) (empty : α) (f : Toml.Value → Option α) :
    Option α := do
  let values ← (t.named (utf8 key)).mapM f
  return values.getLast?.getD empty

/-- The entries of all tables under a name, however its letters are written. -/
def section? (t : Toml.Table) (name : String) : Option Toml.Table := do
  let tables ← (t.named (utf8 name)).mapM table?
  return tables.flatten

/-- The configuration that a document holds, without defaults. Unknown keys are ignored. -/
def ofDocument? (t : Toml.Table) : Option Manifest := do
  let project ← section? t "project"
  let engine ← section? t "engine"
  let store ← section? t "store"
  let log ← section? t "log"
  return {
    name := ← entry project "name" [] text?
    equations := ← entry project "equations" [] texts?
    state := ← entry project "state" [] text?
    compat := ← entry engine "compat-mode" false boolean?
    maxDepth := ← entry engine "max-return-depth" 0 integer?
    strictLabels := ← entry engine "strict-stack-labels" false boolean?
    stepLimit := ← entry engine "step-limit" 0 integer?
    memoryLimit := ← entry store "memory-limit" 0 integer?
    initialCapacity := ← entry store "initial-capacity" 0 integer?
    verbosity := ← entry log "verbosity" 0 integer?
    logFile := ← entry log "file" [] text? }

/-! ## From files -/

def load (fs : Files) (dir : Bytes) : Except Error Manifest := do
  let path := Path.join dir fileName
  let text ← (fs.read path).mapError (Error.cannotRead path)
  match (Toml.parse text).bind ofDocument? with
  | none => .error (.badManifest path)
  | some m =>
    if m.memoryLimit < 0 then .error (.negativeMemory path)
    else .ok { m with dir := fs.resolve dir }.withDefaults

/-- Loads the configuration file of a directory or of the nearest one above it that has one. -/
def find? (fs : Files) (dir : Bytes) : Except Error (Option Manifest) :=
  let dir := fs.resolve dir
  match (dir :: Path.ancestors dir).find? fun d => fs.hasPath (Path.join d fileName) with
  | none => .ok none
  | some d => (load fs d).map some

/-! ## What it says -/

def options (m : Manifest) : Options :=
  { memoryLimit := m.memoryLimit, initialCapacity := m.initialCapacity, maxDepth := m.maxDepth,
    strictLabels := m.strictLabels }

def resolve (m : Manifest) (path : Bytes) : Bytes :=
  if Path.isAbsolute path then path else Path.join m.dir path

def equationFiles (m : Manifest) : List Bytes := m.equations.map m.resolve

def statePath? (m : Manifest) : Option Bytes :=
  if m.state.isEmpty then none else some (m.resolve m.state)

def logPath? (m : Manifest) : Option Bytes :=
  if m.logFile.isEmpty then none else some (m.resolve m.logFile)

def loadEquations (m : Manifest) (fs : Files) : List FileEquation × List Error :=
  let results := m.equationFiles.map fun path =>
    match fs.read path with
    | .error fault => ([], [Error.cannotRead path fault])
    | .ok text =>
      let lines := readEquations path text m.compat
      (lines.equations, lines.faults.map LineFault.error)
  (results.flatMap (·.1), results.flatMap (·.2))

end Manifest

end Keystroke
