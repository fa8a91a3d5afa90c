import Keystroke.Store.Edit

set_option autoImplicit false

/-! # Code with labels

Compiled code is gathered in streams: the main one, and one for each subroutine. While it is being
gathered, jumps name labels; when it is complete the subroutines are placed behind the main
stream, each behind a return, and every jump gets the number of the line behind its label. -/

namespace Keystroke

/-- A line of code before labels are resolved. -/
inductive CodeLine where
  | plain (line : Instr)
  | label (id : Nat)
  | jump (command : Command) (id : Int)
deriving DecidableEq, Repr

namespace CodeLine

/-- The mark of a label. Only positive numbers are labels; any other gives an empty line. -/
def mark (id : Int) : CodeLine := if 0 < id then .label id.toNat else .plain (.plain .clearX)

end CodeLine

/-- Code that is being gathered. -/
structure Code where
  /-- The stream that lines are added to. -/
  stream : List CodeLine := []
  /-- The streams around it, innermost first. -/
  outer : List (List CodeLine) := []
  /-- The finished subroutines in the order of their completion. -/
  subroutines : List (List CodeLine) := []
  /-- The number of labels handed out. -/
  labels : Nat := 0

namespace Code

def emit (c : Code) (line : CodeLine) : Code := { c with stream := c.stream ++ [line] }

def emitAll (c : Code) (lines : List CodeLine) : Code := { c with stream := c.stream ++ lines }

def add (c : Code) (line : Instr) : Code := c.emit (.plain line)

/-- Hands out labels: the code, and the number before the first of them. -/
def newLabels (c : Code) (count : Nat) : Code × Nat :=
  ({ c with labels := c.labels + count }, c.labels)

def openSubroutine (c : Code) (id : Int) : Code :=
  { c with stream := [.mark id], outer := c.stream :: c.outer }

def closeSubroutine? (c : Code) : Option Code :=
  match c.outer with
  | [] => none
  | stream :: outer =>
    some { c with stream := stream, outer := outer, subroutines := c.subroutines ++ [c.stream] }

def main (c : Code) : List CodeLine := c.outer.getLast?.getD c.stream

/-- The return in front of each subroutine and at the end. -/
def returnLine : CodeLine := .plain (.plain .rtn)

/-- The complete code: the main stream, each finished subroutine behind a return, and a return. -/
def lines (c : Code) : List CodeLine :=
  c.main ++ c.subroutines.flatMap (returnLine :: ·) ++ [returnLine]

/-- The labels of some code, each with the number of the line behind it; `line` is the number of
    the first line. -/
def labelLines (line : Nat) : List CodeLine → List (Nat × Nat)
  | [] => []
  | .label id :: rest => (id, line) :: labelLines line rest
  | _ :: rest => labelLines (line + 1) rest

/-- The line behind a label; of several marks the last one counts. -/
def lineOf? (table : List (Nat × Nat)) (id : Nat) : Option Nat :=
  (table.reverse.find? (·.1 = id)).map (·.2)

def resolveLines (table : List (Nat × Nat)) : List CodeLine → Except Error (List Instr)
  | [] => .ok []
  | .label _ :: rest => resolveLines table rest
  | .plain line :: rest => do
    let more ← resolveLines table rest
    return line :: more
  | .jump command id :: rest => do
    let line ←
      if 0 < id then
        match lineOf? table id.toNat with
        | some n => pure (Instr.withNum command (.ofNat n))
        | none => .error (.undefinedLabel id)
      else pure (Instr.withNum command 0)
    let more ← resolveLines table rest
    return line :: more

def resolve (c : Code) : Except Error (List Instr) :=
  resolveLines (labelLines 1 c.lines) c.lines

def storeLines (ref : ProgramRef) : Int → List Instr → Edit Unit
  | _, [] => pure ()
  | pc, line :: rest => fun s =>
    match Store.insertAfter ref pc line s with
    | .ok (_, pc) s => storeLines ref pc rest s
    | .error e s => .error (if e.isCrash then e else .storing line e) s

def storeInto (c : Code) (ref : ProgramRef) : Edit Unit := do
  let lines ← Edit.ofExcept c.resolve
  Store.withGeneratedEdit do
    Store.clearProgram ref
    storeLines ref (-1) lines

end Code

end Keystroke
