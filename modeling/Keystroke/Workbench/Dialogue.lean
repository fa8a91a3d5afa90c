import Keystroke.Workbench.Basic

set_option autoImplicit false

/-! # The dialogue

The lines that a user types: equations, which are entered and evaluated, and commands, which start
with a colon. -/

namespace Keystroke.Workbench

def prompt : Bytes := utf8 "eqc> "

def greeting : Bytes := utf8 "Type ':help' for commands, Ctrl+D to quit"

def help : List Bytes := [
  utf8 "Enter an equation to compile it and show its residual.",
  utf8 "Commands:",
  utf8 "  :set NAME=value...   Store variables",
  utf8 "  :vars                List variables",
  utf8 "  :list                List compiled equations",
  utf8 "  :solve NAME          Solve the last equation directly for NAME",
  utf8 "  :disasm [NAME]       List the last equation's program, or its solution for NAME",
  utf8 "  :save                Write the session snapshot now",
  utf8 "  :help                Show this text",
  utf8 "  :quit                Leave (Ctrl+D works too)"]

/-! ## Equations -/

def printCaret (offset : Nat) : Work Unit :=
  printLine (List.replicate (prompt.length + offset) 32 ++ utf8 "^")

def unset (w : Workbench) (e : Equation) : List Bytes :=
  e.parameters.filter fun name => (w.session.vars.reals.find? name).isNone

def present (i : Nat) : Work Unit := do
  promote i
  let w ← get
  match w.equations.getLast? with
  | none => return
  | some e =>
    let missing := w.unset e
    if missing.isEmpty then report (evaluate e e.program [])
    else
      describe e
      printLine (utf8 "unset: " ++ joinWith [32] missing)

def enterLine (source : Bytes) : Work Unit := fun w =>
  match enter source w with
  | .ok i w => present i w
  | .error e w =>
    match e.offset? with
    | none => report (throw e) w
    | some offset => (do printCaret offset; report (throw e) : Work Unit) w

/-! ## Commands -/

def withLast (action : Action) : Work Unit := do
  match (← get).equations.length with
  | 0 => printLine (utf8 "no equation entered yet")
  | n + 1 => report (perform n action)

def twoPlaces (n : Nat) : Bytes := if n < 10 then 32 :: decimal n else decimal n

/-- Prints the catalogue; `n` is the number of the first equation. -/
def printCatalogue : Nat → List Equation → Work Unit
  | _, [] => pure ()
  | n, e :: rest => do
    printLine (twoPlaces n ++ 32 :: e.print)
    printCatalogue (n + 1) rest

def variableLine (v : Variables) (name : Bytes) : Bytes :=
  match v.reals.find? name, v.matrices.find? name with
  | some x, _ => valueLine name x
  | none, some elements => name ++ utf8 " = [" ++ decimal elements.length ++ utf8 " elements]"
  | none, none => name

def printLines : List Bytes → Work Unit
  | [] => pure ()
  | line :: rest => do
    printLine line
    printLines rest

def saveCommand : Work Unit := do
  match (← get).manifest.statePath? with
  | none => printLine (utf8 "no state file configured")
  | some _ => report save

private def isAny (word : Bytes) (names : List String) : Bool := names.any (utf8 · = word)

def runCommand (command : Bytes) (arguments : List Bytes) : Work Unit := do
  if isAny command ["help", "h"] then printLines help
  else if isAny command ["set"] then report (assignAll arguments)
  else if isAny command ["vars"] then
    let v := (← get).session.vars
    printLines (v.names.map (variableLine v))
  else if isAny command ["list"] then printCatalogue 1 (← get).equations
  else if isAny command ["solve"] then
    match arguments with
    | [name] => withLast { isolate := name, eval := true }
    | _ => printLine (utf8 "usage: :solve NAME")
  else if isAny command ["disasm"] then
    withLast { isolate := arguments.head?.getD [], disasm := true }
  else if isAny command ["save"] then saveCommand
  else printLine (utf8 "unknown command :" ++ command ++ utf8 " (try :help)")

/-- Does what a line says and tells whether it ends the dialogue. -/
def handle (line : Bytes) : Work Bool := do
  match trimBlank line with
  | [] => return false
  | b :: rest =>
    if b ≠ ascii ':' then
      enterLine (b :: rest)
      return false
    else
      match words rest with
      | [] => return false
      | command :: arguments =>
        if isAny command ["quit", "q", "exit"] then return true
        else
          runCommand command arguments
          return false

/-! ## Completion -/

def isNameByte (b : UInt8) : Bool :=
  isDigitByte b || (97 ≤ lowerAscii b && lowerAscii b ≤ 122) || b = ascii '_'

def candidates (w : Workbench) : List Bytes :=
  Function.all.map (utf8 ·.name) ++ Parse.SpecialForm.all.map (utf8 ·.name)
    ++ NameTable.standard.map (·.1) ++ w.session.vars.names

/-- The lines that complete the name at the end of a line, in bytewise order. -/
def completions (w : Workbench) (line : Bytes) : List Bytes :=
  let before := dropEndWhile isNameByte line
  let word := (line.drop before.length).map upperAscii
  if word.isEmpty then []
  else
    let fitting := (w.candidates.filter word.isPrefixOf).eraseDups
    (fitting.map (before ++ ·)).mergeSort bytesLE

end Keystroke.Workbench
