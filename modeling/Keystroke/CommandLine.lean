import Keystroke.Workbench.Dialogue

set_option autoImplicit false

/-! # The command line

The flags of the command and what it does with them: it opens the workbench of a project, runs one
equation, talks with the user, and saves the session. -/

namespace Keystroke.CommandLine

/-- The flags and what follows them. -/
structure Arguments where
  config : Bytes := []
  state : Bytes := []
  isolate : Bytes := []
  compat : Bool := false
  disasm : Bool := false
  eval : Bool := false
  interactive : Bool := false
  serve : Bool := false
  verbose : Bool := false
  rest : List Bytes := []

/-- Why flags are not followed: one is wrong, or help was asked for. -/
inductive Refusal where
  | badFlag
  | help
deriving DecidableEq, Repr

def Refusal.code : Refusal → Nat
  | badFlag => 2
  | help => 0

/-! ## Flags -/

def setSwitch? (name : Bytes) (on : Bool) (a : Arguments) : Option Arguments :=
  if name = utf8 "compat" then some { a with compat := on }
  else if name = utf8 "disasm" then some { a with disasm := on }
  else if name = utf8 "eval" then some { a with eval := on }
  else if name = utf8 "i" then some { a with interactive := on }
  else if name = utf8 "lsp" then some { a with serve := on }
  else if name = utf8 "v" then some { a with verbose := on }
  else none

def setText? (name text : Bytes) (a : Arguments) : Option Arguments :=
  if name = utf8 "config" then some { a with config := text }
  else if name = utf8 "isolate" then some { a with isolate := text }
  else if name = utf8 "state" then some { a with state := text }
  else none

def readSwitch? (text : Bytes) : Option Bool :=
  if ["1", "t", "T", "TRUE", "true", "True"].any (utf8 · = text) then some true
  else if ["0", "f", "F", "FALSE", "false", "False"].any (utf8 · = text) then some false
  else none

/-- What an argument is: not a flag, the end of the flags, or a flag with a value that may follow
    an equals sign. -/
inductive Word where
  | plain
  | endOfFlags
  | flag (name : Bytes) (value? : Option Bytes)
  | malformed
deriving DecidableEq, Repr

def Word.ofName (name : Bytes) : Word :=
  match name with
  | [] => .malformed
  | b :: rest =>
    if b = ascii '-' || b = ascii '=' then .malformed
    else
      match Workbench.cutAt? (ascii '=') rest with
      | some (before, behind) => .flag (b :: before) (some behind)
      | none => .flag name none

def Word.ofText (text : Bytes) : Word :=
  match text with
  | a :: b :: rest =>
    if a ≠ ascii '-' then .plain
    else if b = ascii '-' then (if rest.isEmpty then .endOfFlags else .ofName rest)
    else .ofName (b :: rest)
  | _ => .plain

/-- Reads arguments; flags end at the first argument that is none. -/
def parseFrom (a : Arguments) : List Bytes → Except Refusal Arguments
  | [] => .ok a
  | text :: rest =>
    match Word.ofText text with
    | .plain => .ok { a with rest := text :: rest }
    | .endOfFlags => .ok { a with rest := rest }
    | .malformed => .error .badFlag
    | .flag name value? =>
      match setSwitch? name true a with
      | some on =>
        match value? with
        | none => parseFrom on rest
        | some value =>
          match (readSwitch? value).bind fun b => setSwitch? name b a with
          | some a => parseFrom a rest
          | none => .error .badFlag
      | none =>
        match value?, rest with
        | some value, rest =>
          match setText? name value a with
          | some a => parseFrom a rest
          | none => .error (unknown name)
        | none, value :: rest =>
          match setText? name value a with
          | some a => parseFrom a rest
          | none => .error (unknown name)
        | none, [] => .error (unknown name)
where
  unknown (name : Bytes) : Refusal :=
    if name = utf8 "h" || name = utf8 "help" then .help else .badFlag

def parse (arguments : List Bytes) : Except Refusal Arguments := parseFrom {} arguments

/-! ## Opening -/

/-- The configuration: of the directory that was named, or of the nearest one at or above the
    working directory that has one, or the defaults. -/
def loadManifest (fs : Files) (config : Bytes) : Except Error Manifest := do
  if !config.isEmpty then Manifest.load fs config
  else
    match ← Manifest.find? fs fs.cwd with
    | some m => return m
    | none => return { Manifest.default with dir := fs.cwd }

def applyFlags (a : Arguments) (fs : Files) (m : Manifest) : Manifest :=
  { m with
    compat := m.compat || a.compat
    state := if a.state.isEmpty then m.state else fs.resolve a.state
    verbosity := if a.verbose then max 2 m.verbosity else m.verbosity }

def leastVerbosity : Int := -3

/-- Opens the file for messages, which is created when it is missing. -/
def openLog (m : Manifest) (fs : Files) : Except FileFault Files :=
  match m.logPath? with
  | none => .ok fs
  | some path =>
    if m.verbosity < leastVerbosity then .ok fs
    else
      match fs.place path with
      | .file _ => .ok fs
      | _ => fs.write path []

/-! ## Whole runs -/

/-- What a run leaves behind. -/
structure Outcome where
  code : Nat := 0
  output : Bytes := []
  complaints : List Bytes := []
  files : Files

def complaint (e : Error) : Bytes := utf8 "Error: " ++ e.message

def brokenCode : Nat := 2

def Outcome.refused (files : Files) (e : Error) : Outcome :=
  if e.isCrash then { code := brokenCode, files := files }
  else { code := 1, complaints := [complaint e], files := files }

/-- A run in progress. -/
structure Progress where
  workbench : Workbench
  errors : List Error := []
  isBroken : Bool := false

namespace Progress

/-- Runs the next stage. An error does not keep the stages behind it from running, unless the run
    broke off. -/
def stage (p : Progress) (op : Work Unit) : Progress :=
  if p.isBroken then p
  else
    match op p.workbench with
    | .ok _ w => { p with workbench := w }
    | .error e w =>
      if e.isCrash then { p with workbench := w, isBroken := true }
      else { p with workbench := w, errors := p.errors ++ [e] }

def code (p : Progress) : Nat :=
  if p.isBroken then brokenCode else if p.errors.isEmpty then 0 else 1

def outcome (p : Progress) : Outcome where
  code := p.code
  output := p.workbench.output
  complaints := p.errors.map complaint
  files := p.workbench.files

end Progress

def runEquation (a : Arguments) : Work Unit := do
  match a.rest with
  | [] => return
  | source :: assignments =>
    Workbench.runOnce source assignments ⟨a.isolate, a.disasm, a.eval⟩

def isDialogue (a : Arguments) : Bool := a.interactive || a.rest.isEmpty

def lineBuffer : Nat := 4096

/-- Takes a line off the input. A line that does not fit is taken in pieces; a carriage return at
    the end of a piece is left for the next one. -/
def readLine? (input : Bytes) : Option (Bytes × Bytes) :=
  if input.isEmpty then none
  else
    let line := input.takeWhile (· ≠ 10)
    if lineBuffer ≤ line.length then
      let piece := withoutReturn (line.take lineBuffer)
      some (piece, input.drop piece.length)
    else
      match input.drop line.length with
      | [] => some (line, [])
      | _ :: rest => some (withoutReturn line, rest)

/-- Talks with the user over a text that was typed ahead. The first argument bounds the lines. -/
def converse : Nat → Bytes → Work Unit
  | 0, _ => pure ()
  | bound + 1, input => do
    modify fun w => { w with output := w.output ++ Workbench.prompt }
    match readLine? input with
    | none => Workbench.printLine []
    | some (line, rest) =>
      if ← Workbench.handle line then return else converse bound rest

/-- The dialogue over a text that was typed ahead, if the user is talked with. -/
def dialogue (a : Arguments) (input : Bytes) : Work Unit := do
  if isDialogue a then
    Workbench.printLine Workbench.greeting
    converse (input.length + 1) input

def openWorkbench (a : Arguments) (fs : Files) : Except Outcome Workbench := do
  let m ← (loadManifest fs a.config).mapError (Outcome.refused fs)
  let m := applyFlags a fs m
  let fs ← (openLog m fs).mapError fun fault =>
    { code := 1, complaints := [utf8 "log file error: " ++ fault.message], files := fs }
  (Workbench.ofManifest m fs).mapError (Outcome.refused fs)

/-- Runs the command on files and on a text that was typed ahead. A run that serves an editor
    leaves the session as it is. -/
def run (arguments : List Bytes) (fs : Files) (input : Bytes) : Outcome :=
  match parse arguments with
  | .error refusal => { code := refusal.code, files := fs }
  | .ok a =>
    match openWorkbench a fs with
    | .error outcome => outcome
    | .ok w =>
      if a.serve then { files := w.files }
      else
        (((Progress.mk w [] false).stage (runEquation a)).stage (dialogue a input)).stage
          Workbench.save |>.outcome

end Keystroke.CommandLine
