import Keystroke.Machine.Session
import Keystroke.Project.EquationFile
import Keystroke.Text.Capital

set_option autoImplicit false

/-! # The editor service

Equation files that are open in an editor. The equations of every open document are compiled into
one session; an update keeps the equations whose fingerprints were there before and frees the
others. -/

namespace Keystroke.Editor

/-- An equation of a document. -/
structure DocumentEquation where
  line : Nat
  equation : Equation
  fingerprint : Bytes
  failure : Option Error := none

/-- An open document. -/
structure Document where
  text : Bytes
  equations : List DocumentEquation := []
  faults : List LineFault := []

/-- The service: a session and the open documents. -/
structure Service where
  session : Session
  names : NameTable
  compat : Bool
  documents : Assoc Bytes Document := []
  stopped : Bool := false

/-- What is wrong with a line of a document. -/
structure Diagnostic where
  line : Nat
  start : Nat
  stop : Nat
  message : Bytes
deriving DecidableEq, Repr

/-- What an editor is told about the service when it connects. -/
structure Capabilities where
  name : Bytes
  version : Bytes
  openClose : Bool
  wholeText : Bool
  triggers : List Bytes
  hover : Bool

def capabilities : Capabilities where
  name := utf8 "rpncore-lsp"
  version := utf8 "0.1.0"
  openClose := true
  wholeText := true
  triggers := [utf8 "("]
  hover := true

namespace Service

def new (session : Session) (names : NameTable) (compat : Bool) : Service :=
  { session := session, names := names, compat := compat }

/-! ## Updates -/

/-- Takes the first equation with a fingerprint out of a pool, if it is in the given mode. -/
def takeFrom (fingerprint : Bytes) (compat : Bool) :
    List DocumentEquation → Option (DocumentEquation × List DocumentEquation)
  | [] => none
  | e :: rest =>
    if e.fingerprint = fingerprint then
      if e.equation.compat = compat then some (e, rest) else none
    else (takeFrom fingerprint compat rest).map fun r => (r.1, e :: r.2)

/-- Compiles an equation that is not in the pool. An error is kept with it. -/
def compileNew (names : NameTable) (entry : FileEquation) : Machine DocumentEquation := fun s =>
  match Session.edit (entry.equation.compile names) s with
  | .ok e s => .ok ⟨entry.line - 1, e, entry.equation.fingerprint, none⟩ s
  | .error failure s =>
    if failure.isCrash then .error failure s
    else .ok ⟨entry.line - 1, entry.equation, entry.equation.fingerprint, some failure⟩ s

/-- Compiles equations in turn, taking those from the pool that it has; gives the equations and
    what is left of the pool. -/
def compileAll (names : NameTable) : List DocumentEquation → List FileEquation →
    Machine (List DocumentEquation × List DocumentEquation)
  | pool, [] => pure ([], pool)
  | pool, entry :: rest => do
    let fingerprint := entry.equation.fingerprint
    match takeFrom fingerprint entry.equation.compat pool with
    | some (old, pool) =>
      let (more, pool) ← compileAll names pool rest
      return (⟨entry.line - 1, old.equation, fingerprint, none⟩ :: more, pool)
    | none =>
      let compiled ← compileNew names entry
      let (more, pool) ← compileAll names pool rest
      return (compiled :: more, pool)

def freeAll (equations : List DocumentEquation) (s : Session) : Session :=
  { s with store := Equation.freeAll (equations.map (·.equation)) s.store }

def recompile (names : NameTable) (old : List DocumentEquation) (entries : List FileEquation) :
    Machine (List DocumentEquation) := do
  let (equations, rest) ← compileAll names (old.filter (·.failure.isNone)) entries
  modify (freeAll rest)
  return equations

def work? {α : Type} (s : Service) (op : Machine α) : Option α × Service :=
  if s.stopped then (none, s)
  else
    match op s.session with
    | .ok a session => (some a, { s with session := session })
    | .error _ session => (none, { s with session := session })

def lineLength (text : Bytes) (line : Nat) : Nat := (((linesOf text)[line]?).getD []).length

def diagnostics (d : Document) : List Diagnostic :=
  let faults := d.faults.map fun f =>
    Diagnostic.mk (f.line - 1) (f.column - 1) f.column f.cause.message
  let failures := d.equations.filterMap fun e =>
    e.failure.map fun failure => ⟨e.line, 0, lineLength d.text e.line, failure.message⟩
  (faults ++ failures).mergeSort fun a b => a.line ≤ b.line

def update (s : Service) (uri text : Bytes) : List Diagnostic × Service :=
  let lines := readEquations uri text s.compat
  let old := ((s.documents.find? uri).map (·.equations)).getD []
  let (equations?, s) := s.work? (recompile s.names old lines.equations)
  let d : Document := ⟨text, equations?.getD [], lines.faults⟩
  (diagnostics d, { s with documents := s.documents.put uri d })

def close (s : Service) (uri : Bytes) : Service :=
  match s.documents.find? uri with
  | none => s
  | some d =>
    ({ s with documents := s.documents.remove uri }.work? (modify (freeAll d.equations))).2

def shutdown (s : Service) : Service :=
  { (s.documents.map (·.1)).foldl close s with stopped := true }

end Service

/-! ## Names in a text -/

/-- Whether a byte belongs to a name: a digit, an underscore, or a byte that is a letter when each
    byte is a character. -/
def isNameByte (b : UInt8) : Bool :=
  isDigitByte b || b = ascii '_' || (97 ≤ lowerAscii b && lowerAscii b ≤ 122)
    || b = 0xAA || b = 0xB5 || b = 0xBA || (0xC0 ≤ b && b ≠ 0xD7 && b ≠ 0xF7)

def lineAround? (text : Bytes) (line column : Nat) : Option (Bytes × Bytes) :=
  ((splitOnByte 10 text)[line]?).map fun l => (l.take column, l.drop column)

/-- The beginning of a name in front of a place; empty when there is none. -/
def nameBefore (text : Bytes) (line column : Nat) : Bytes :=
  match lineAround? text line column with
  | none => []
  | some (before, _) => (before.reverse.takeWhile isNameByte).reverse

/-- The name at a place; empty when there is none. -/
def nameAround (text : Bytes) (line column : Nat) : Bytes :=
  match lineAround? text line column with
  | none => []
  | some (before, behind) =>
    (before.reverse.takeWhile isNameByte).reverse ++ behind.takeWhile isNameByte

/-! ## Completion -/

def formHelp : Parse.SpecialForm → Bytes
  | .min => utf8 "MIN(a:b:...) smallest argument"
  | .max => utf8 "MAX(a:b:...) largest argument"
  | .choice => utf8 "IF(cond:then:else) value of then when cond holds, else of else"
  | .fetch => utf8 "G(name) value of a variable without making it a parameter"
  | .solving => utf8 "S(name) true while the solver is solving for name"
  | .assign => utf8 "L(name:expr) stores expr into name and returns it"
  | .item => utf8 "ITEM(name:i) element i of matrix name, counting from 1"
  | .sigma => utf8 "SIGMA(i:from:to:step:expr) sum of expr for i from from to to"

/-- A name that is offered. -/
structure Completion where
  label : Bytes
  isKeyword : Bool
  detail : Bytes
  insert : Bytes
deriving DecidableEq, Repr

def called (name : Bytes) : Bytes := name ++ utf8 "("

def tableCompletion (name : Bytes) (entry : NameEntry) : Completion where
  label := name
  isKeyword := false
  detail := entry.command.name ++ utf8 ", " ++ decimalInt entry.arguments ++ utf8 " arguments"
  insert := if 0 < entry.arguments then called name else name

/-- All names that are offered: functions, special forms, and the name table in bytewise order. -/
def offered (names : NameTable) : List Completion :=
  (Function.all.map fun f =>
    ⟨utf8 f.name, false, utf8 "unary function", called (utf8 f.name)⟩)
  ++ (Parse.SpecialForm.all.map fun f => ⟨utf8 f.name, true, formHelp f, called (utf8 f.name)⟩)
  ++ ((names.mergeSort fun a b => bytesLE a.1 b.1).map fun (name, entry) =>
    tableCompletion name entry)

namespace Service

/-- The names that complete the one in front of a place; `none` where there is no name. -/
def complete? (s : Service) (uri : Bytes) (line column : Nat) : Option (List Completion) := do
  let d ← s.documents.find? uri
  let word := nameBefore d.text line column
  if word.isEmpty then none
  else some ((offered s.names).filter fun c => (capitals word).isPrefixOf c.label)

/-! ## Hovering -/

def describeEquation (e : DocumentEquation) : Bytes :=
  let parameters := e.equation.parameters
  utf8 "**" ++ e.equation.name ++ utf8 "**\n\n```\n" ++ e.equation.print ++ utf8 "\n```\n\n"
    ++ (if parameters.isEmpty then []
      else utf8 "Parameters: " ++ joinWith (utf8 ", ") parameters ++ utf8 "\n\n")
    ++ utf8 "Fingerprint: `" ++ (hex e.fingerprint).take 16 ++ utf8 "`"

/-- Solves an equation of a document for a variable: its text, and the equation with the new
    program. -/
def solution (e : Equation) (name : Bytes) : Machine (Bytes × Equation) := do
  let (_, e) ← Session.edit (e.solveFor name)
  let tree ← Machine.ofExcept ((e.tree.isolate name).mapError Error.isolation)
  return (tree.print e.compat, e)

def replaceEquation (s : Service) (uri : Bytes) (d : Document) (line : Nat) (e : Equation) :
    Service :=
  let equations := d.equations.map fun known =>
    if known.line = line then { known with equation := e } else known
  { s with documents := s.documents.put uri { d with equations := equations } }

def parameterIntro (e : Equation) (name : Bytes) : Bytes :=
  utf8 "**" ++ name ++ utf8 "** parameter of `" ++ e.print ++ utf8 "`\n\n"

def solvedText (name : Bytes) : Option Bytes → Bytes
  | some text => utf8 "Solves directly: `" ++ name ++ utf8 " = " ++ text ++ utf8 "`"
  | none => utf8 "Solved numerically"

/-- The description of a parameter, which solves the equation for it if that can be done. -/
def describeParameter (s : Service) (uri : Bytes) (d : Document) (e : DocumentEquation)
    (name : Bytes) : Bytes × Service :=
  let intro := parameterIntro e.equation name
  if e.failure.isSome then (intro, s)
  else
    match s.work? (solution e.equation name) with
    | (some (text, solved), s) =>
      (intro ++ solvedText name (some text), s.replaceEquation uri d e.line solved)
    | (none, s) => (intro ++ solvedText name none, s)

def describeBuiltin? (name : Bytes) : Option Bytes :=
  match Parse.SpecialForm.ofName? name with
  | some f => some (utf8 "**" ++ name ++ utf8 "**\n\n" ++ formHelp f)
  | none => (Function.ofName? name).map fun _ => utf8 "**" ++ name ++ utf8 "** unary function"

def hover (s : Service) (uri : Bytes) (line column : Nat) : Option Bytes × Service :=
  match s.documents.find? uri with
  | none => (none, s)
  | some d =>
    let name := nameAround d.text line column
    if name.isEmpty then (none, s)
    else
      match describeBuiltin? name with
      | some text => (some text, s)
      | none =>
        match d.equations.find? (·.line = line) with
        | none => (none, s)
        | some e =>
          if name = e.equation.name then (some (describeEquation e), s)
          else if e.equation.parameters.contains name then
            let (text, s) := s.describeParameter uri d e name
            (some text, s)
          else (none, s)

end Service

end Keystroke.Editor
