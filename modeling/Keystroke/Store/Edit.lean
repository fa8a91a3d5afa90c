import Keystroke.Store.Jump

set_option autoImplicit false

/-! # Editing programs

A line is stored in front of the one at an offset. Inserting an END cuts a program in two, and
deleting one joins a program with the next; the END of the last program stays. Edits of user
programs are counted, outside bulk loads and generated edits, so that a session can tell when its
pending returns have become stale. -/

namespace Keystroke.Store

def edited : Edit Unit := modify fun s =>
  if s.loading = 0 && s.generatedEdits = 0 then { s with edits := s.edits + 1 } else s

def checkEditable (p : Program) : Edit Unit := do
  if p.generated && (← get).generatedEdits = 0 then throw (.restricted .generatedCode)

/-! ## Programs -/

/-- A store with one empty program; with none if the limit leaves no memory for it. -/
def new (options : Options) : Except Error Store :=
  let s : Store := { options := options.normalize }
  match emptyProgram false s with
  | .error e s => if e.isCrash then .error e else .ok s
  | .ok p s =>
    match rebuildLabels { s with programs := [p] } with
    | .ok _ s => .ok s
    | .error e _ => .error e

/-- An empty program at the end of memory: the last one if it is empty, or else a new one. -/
def newProgram : Edit ProgramRef := do
  let s ← get
  let count := s.programs.length
  match s.programs.getLast? with
  | some last =>
    if last.buffer.text.length = endBytes.length then return .user (count - 1 : Nat)
    else create count
  | none => create count
where
  create (count : Nat) : Edit ProgramRef := do
    let p ← emptyProgram false
    modify fun s => { s with programs := s.programs ++ [p] }
    rebuildLabels
    edited
    return .user count

/-- An empty compiled program, in the first free slot. -/
def newEquationSlot : Edit ProgramRef := do
  let p ← emptyProgram true
  let s ← get
  match s.equations.findIdx? (·.isNone) with
  | some i =>
    set { s with equations := s.equations.set i (some p) }
    return .equation i
  | none =>
    set { s with equations := s.equations ++ [some p] }
    return .equation s.equations.length

/-- Frees an equation slot, unless a return into it is pending. -/
def freeEquation (ref : ProgramRef) : Edit Unit := do
  match ref with
  | .equation i =>
    let p ← getProgram ref
    if 0 < p.refs then throw (.programInUse ref)
    free p.buffer
    modify fun s => { s with equations := s.equations.set i.toNat none }
  | _ => throw (.notEquation ref)

/-! ## Brackets -/

def openGenerated (s : Store) : Store := { s with generatedEdits := s.generatedEdits + 1 }

def closeGenerated (s : Store) : Store := { s with generatedEdits := s.generatedEdits - 1 }

def withGeneratedEdit {α : Type} (body : Edit α) : Edit α := fun s =>
  match body s.openGenerated with
  | .ok a s => .ok a s.closeGenerated
  | .error e s => .error e s.closeGenerated

/-- Opens a bulk load, in which targets of jumps are not looked after. -/
def beginBulkLoad : Edit Unit := modify fun s => { s with loading := s.loading + 1 }

/-- Forgets the targets of jumps in the programs that a list of references names. -/
def invalidateAll : List ProgramRef → Edit Unit
  | [] => pure ()
  | ref :: refs => do
    invalidate ref true
    invalidateAll refs

/-- Closes a bulk load. The last one to be closed makes the label table anew and forgets all
    targets. -/
def endBulkLoad : Edit Unit := do
  let s ← get
  if s.loading = 0 then return
  else
    set { s with loading := s.loading - 1 }
    if s.loading = 1 then
      rebuildLabels
      invalidateAll ((List.range s.programs.length).map fun (i : Nat) => .user i)
      invalidateAll ((List.range s.equations.length).map fun (i : Nat) => .equation i)

/-! ## Lines -/

/-- The line that an operand naming an entry of the label table stands for. -/
def resolved? (s : Store) (line : Instr) : Option Instr :=
  if line.operand.kind = .labelIndex then
    let i := line.operand.num.toInt
    ((if i < 0 then none else s.labels[i.toNat]?).bind Label.name).map fun name =>
      { line with operand := { kind := .text, text := name } }
  else some line

def resolve (line : Instr) : Edit Instr := do
  match (← get).resolved? line with
  | some line => return line
  | none => throw (.labelIndexNotFound line.operand.num.toInt)

/-- Cuts a program in two at an offset; the second half becomes the program behind it. -/
def splitProgram (ref : ProgramRef) (p : Program) (pc : Nat) : Edit ProgramRef := do
  match ref with
  | .user i =>
    let tail := p.buffer.text.drop pc
    let b ← newBuffer tail.length
    let front := { p with buffer := (p.buffer.truncate pc).append endBytes }
    let back : Program := { buffer := b.append tail }
    let behind := i.toNat + 1
    modify fun s =>
      let s := s.setProgram ref front
      { s with programs := s.programs.take behind ++ back :: s.programs.drop behind }
    rebuildLabels
    invalidate (.user behind) true
    invalidate ref true
    edited
    return .user behind
  | _ => throw (.restricted .endInEquation)

/-- Brings the targets of jumps up to date, unless that is left to the end of a bulk load. -/
def refreshTargets (ref : ProgramRef) : Edit Unit := do
  if (← get).loading = 0 then
    invalidate ref false
    edited

/-- Brings the label table and the targets of jumps up to date after a line was put in or taken
    out. -/
def finishLineEdit (ref : ProgramRef) (pc delta : Int) (isLabel : Bool) : Edit Unit := do
  if isLabel then rebuildLabels else shiftLabels ref pc delta
  refreshTargets ref

/-- Stores a line at a place in a program. -/
def putLine (ref : ProgramRef) (p : Program) (pc : Nat) (line : Instr) : Edit ProgramRef := do
  if line.command = .endLine then splitProgram ref p pc
  else
    let code ← Edit.ofExcept (line.encode.mapError .ofInstrFault)
    let b ← reserve p.buffer code.length
    modify (·.setProgram ref { p with buffer := b.insertAt pc code })
    finishLineEdit ref pc code.length (line.command = .lbl && line.operand.kind = .text)
    return ref

/-- Stores a line in front of the one at an offset; -1 is the top. Gives the program that is
    current afterwards, which is the second half when an END was stored. -/
def insert (ref : ProgramRef) (pc : Int) (line : Instr) : Edit ProgramRef := do
  let p ← getProgram ref
  checkEditable p
  let pc := if pc = -1 then 0 else pc
  if pc < 0 || (p.buffer.text.length : Int) - endBytes.length < pc then throw (.pcOutside pc ref)
  putLine ref p pc.toNat (← resolve line)

/-- The answer for a line that goes in behind another: the program that is current then, and the
    place of the line, or the top if an END has cut the program in two. -/
def placed (ref : ProgramRef) (line : Instr) (place : Int) (current : ProgramRef) :
    ProgramRef × Int :=
  (current, if line.command = .endLine && current ≠ ref then -1 else place)

/-- Stores a line behind the one at an offset, or in front of it when that is an END; -1 is the
    top. Gives the program and the offset of the new line, or the top of the second half when an
    END was stored. -/
def insertAfter (ref : ProgramRef) (pc : Int) (line : Instr) : Edit (ProgramRef × Int) := do
  let p ← getProgram ref
  let text := p.buffer.text
  let place ←
    if pc = -1 then pure 0
    else
      match headerAt? text pc with
      | none => throw .outOfBounds
      | some h =>
        if h.command = .endLine then pure pc
        else
          let size ← Edit.ofExcept ((lineSizeAt text pc).mapError .ofInstrFault)
          pure (pc + size)
  return placed ref line place (← insert ref place line)

def mergeNext (ref : ProgramRef) (p : Program) : Edit Unit := do
  match ref with
  | .user i =>
    match (← get).programs[i.toNat + 1]? with
    | none => throw (.restricted .finalEnd)
    | some next =>
      let added := next.buffer.text
      let b ← reserve p.buffer (added.length - endBytes.length)
      let b := (b.truncate (b.text.length - endBytes.length)).append added
      modify (·.setProgram ref { p with buffer := b })
      free next.buffer
      modify fun s => { s with programs := s.programs.eraseIdx (i.toNat + 1) }
      rebuildLabels
      invalidate ref true
      edited
  | _ => throw (.restricted .finalEnd)

/-- Takes out the line at an offset. Taking out an END joins the program with the next one. -/
def delete (ref : ProgramRef) (pc : Int) : Edit Unit := do
  let p ← getProgram ref
  checkEditable p
  let text := p.buffer.text
  if pc < 0 || (text.length : Int) ≤ pc then throw (.pcOutside pc ref)
  match headerAt? text pc with
  | none => throw .outOfBounds
  | some h =>
    if h.command = .endLine then mergeNext ref p
    else
      let size ← Edit.ofExcept ((lineSizeAt text pc).mapError .ofInstrFault)
      modify (·.setProgram ref { p with buffer := p.buffer.removeAt pc.toNat size })
      finishLineEdit ref pc (-size) (h.command = .lbl && h.kind = .text)

def clearProgram (ref : ProgramRef) : Edit Unit := do
  let p ← getProgram ref
  checkEditable p
  modify (·.setProgram ref
    { p with buffer := (p.buffer.truncate 0).append endBytes, cachesClear := true })
  match ref with
  | .user _ => rebuildLabels
  | _ => pure ()
  edited

end Keystroke.Store
