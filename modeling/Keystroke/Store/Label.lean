import Keystroke.Store.Basic

set_option autoImplicit false

/-! # Labels and line numbers

The label table lists the ENDs and the global labels of the user's programs in the order of
memory, and is kept up to date by shifting offsets where an edit adds or removes no label. Local
labels are searched for from the line behind a jump, around the end of the program and up to the
start of the search. -/

namespace Keystroke

/-! ## The label table -/

/-- The name of the global label at the front of `rest`. It is read from the bytes behind the text
    where the text ends too soon. -/
def labelName (rest behind : Bytes) : Except Error Bytes :=
  match rest[2]? with
  | none => .error .outOfBounds
  | some n =>
    let all := rest ++ behind
    if all.length < 3 + n.toNat then .error .outOfBounds else .ok ((all.drop 3).take n.toNat)

/-- The labels of one program from an offset on; the first argument bounds the lines. A line that
    cannot be read ends the scan. -/
def scanLabels (program : Nat) (behind : Bytes) : Nat → Nat → Bytes → Except Error (List Label)
  | _, _, [] => .ok []
  | 0, _, _ => .ok []
  | count + 1, pc, rest =>
    match Header.read? rest with
    | none => .error .outOfBounds
    | some h => do
      let here ←
        if h.command = .endLine then pure [⟨none, program, pc⟩]
        else if h.command = .lbl && h.kind = .text then do
          let name ← labelName rest behind
          pure [⟨some name, program, pc⟩]
        else pure []
      match lineSize rest with
      | .error _ => return here
      | .ok size =>
        let more ← scanLabels program behind count (pc + size) (rest.drop size)
        return here ++ more

/-- The labels of a buffer. No name is longer than 255 bytes. -/
def Buffer.labels (program : Nat) (b : Buffer) : Except Error (List Label) :=
  scanLabels program (b.behind 255) b.text.length 0 b.text

/-- The label table of a list of programs, the first of which has the given number. -/
def labelTable : Nat → List Program → Except Error (List Label)
  | _, [] => .ok []
  | n, p :: ps => do
    let here ← p.buffer.labels n
    let more ← labelTable (n + 1) ps
    return here ++ more

/-- An entry with its offset shifted. -/
def Label.shift (delta : Int) (e : Label) : Label := { e with pc := e.pc + delta }

/-- The shift of the entries of a program that stand at an offset or behind it. -/
def Label.shiftFrom (i pc delta : Int) (e : Label) : Label :=
  if (e.program : Int) = i && pc ≤ e.pc then e.shift delta else e

/-- A table with the entries of a program shifted. The scan ends at the first entry of a later
    program. -/
def shiftTable (i pc delta : Int) : List Label → List Label
  | [] => []
  | e :: es =>
    if i < e.program then e :: es else e.shiftFrom i pc delta :: shiftTable i pc delta es

namespace Store

def rebuildLabels : Edit Unit := do
  let s ← get
  let labels ← Edit.ofExcept (labelTable 0 s.programs)
  set { s with labels := labels }

def shiftLabels (ref : ProgramRef) (pc delta : Int) : Edit Unit := modify fun s =>
  match ref with
  | .user i => { s with labels := shiftTable i pc delta s.labels }
  | _ => s

/-- Where a global label stands: of several with the name, the last one counts. -/
def findGlobal? (s : Store) (name : Bytes) : Option (ProgramRef × Int) :=
  (s.labels.reverse.find? fun l => l.name = some name).map fun l => (.user l.program, l.pc)

end Store

/-! ## Local labels -/

/-- The number that a label on a stack register answers to. -/
def registerLabel? (register : UInt8) : Option Int32 :=
  if register = ascii 'T' then some 112
  else if register = ascii 'Z' then some 113
  else if register = ascii 'Y' then some 114
  else if register = ascii 'X' then some 115
  else if register = ascii 'L' then some 116
  else none

/-- Whether the line at the front of `rest`, with header `h`, is the local label that `arg` asks
    for. A label on a stack register answers to its number, and to any register unless labels are
    strict. -/
def isLocalLabel (strict : Bool) (arg : Operand) (h : Header) (rest : Bytes) :
    Except Error Bool :=
  if h.command = .lbl then
    match h.kind with
    | .num =>
      if arg.kind = .num then
        .ok (((Varint.decode (rest.drop 2)).map (·.1.toInt32)).getD 0 == arg.num)
      else .ok false
    | .register =>
      match rest[2]? with
      | none => .error .outOfBounds
      | some register =>
        match arg.kind with
        | .register => .ok (if strict then register == arg.register else arg.register != 0)
        | .num => .ok (registerLabel? register == some arg.num)
        | _ => .ok false
    | .letter =>
      if arg.kind = .letter then
        match rest[2]? with
        | none => .error .outOfBounds
        | some letter => .ok (letter == arg.letter)
      else .ok false
    | _ => .ok false
  else .ok false

/-- Searches lines from `search` on, going back to the top at the END and stopping when the start
    is reached again; the first argument bounds the lines visited. -/
def searchLocal (strict : Bool) (arg : Operand) (text : Bytes) (start : Nat) :
    Nat → Nat → Bool → Except Error Int32
  | 0, _, _ => .error .endless
  | count + 1, search, wrapped =>
    if wrapped && start ≤ search then .ok targetNone
    else
      let atEnd := text.length ≤ search + endBytes.length
      if atEnd && start = 0 then .ok targetNone
      else
        let search := if atEnd then 0 else search
        let wrapped := wrapped || atEnd
        let rest := text.drop search
        match Header.read? rest with
        | none => .error .outOfBounds
        | some h => do
          if ← isLocalLabel strict arg h rest then return .ofNat search
          else
            match lineSize rest with
            | .error _ => return targetNone
            | .ok size => searchLocal strict arg text start count (search + size) wrapped

/-- The offset of the local label that `arg` asks for, searched from `start` on. Two rounds
    through the program visit every line that there is to visit. -/
def findLocal (strict : Bool) (arg : Operand) (text : Bytes) (start : Int) : Except Error Int32 :=
  searchLocal strict arg text start.toNat (2 * text.length + 4) start.toNat false

def Store.findLocal (s : Store) (ref : ProgramRef) (start : Int) (arg : Operand) :
    Except Error Int32 :=
  match s.program? ref with
  | none => .ok targetNone
  | some p => Keystroke.findLocal s.options.strictLabels arg p.buffer.text start

/-! ## Line numbers -/

/-- Counts lines up to an offset, `here` being the offset of `rest`. -/
def countLines (pc : Int) : Nat → Nat → Nat → Bytes → Except Error Nat
  | 0, _, line, _ => .ok line
  | count + 1, here, line, rest =>
    if pc ≤ here then .ok line
    else
      match Header.read? rest with
      | none => .error .outOfBounds
      | some h =>
        if h.command = .endLine then .ok line
        else
          match lineSize rest with
          | .error _ => .ok line
          | .ok size => countLines pc count (here + size) (line + 1) (rest.drop size)

/-- The number of the line at an offset, counted from one. The offset -1 is in front of the first
    line and has number zero. -/
def Store.lineAt (s : Store) (ref : ProgramRef) (pc : Int) : Except Error Nat :=
  if pc = -1 then .ok 0
  else
    match s.program? ref with
    | none => .ok 0
    | some p => countLines pc (p.buffer.text.length + 1) 0 1 p.buffer.text

/-- Passes over lines, `here` being the offset of `rest`; the END is not passed. -/
def passLines : Nat → Nat → Nat → Bytes → Except Error Nat
  | 0, _, here, _ => .ok here
  | _ + 1, 0, here, _ => .ok here
  | bound + 1, count + 1, here, rest =>
    match Header.read? rest with
    | none => .error .outOfBounds
    | some h =>
      if h.command = .endLine then .ok here
      else
        match lineSize rest with
        | .error _ => .ok here
        | .ok size => passLines bound count (here + size) (rest.drop size)

def lineOffset (text : Bytes) (line : Int) : Except Error Int :=
  if line = 0 then .ok (-1)
  else (passLines (text.length + 1) (line - 1).toNat 0 text).map (↑·)

/-- The offset of a line by its number. Numbers behind the END give the END. -/
def Store.pcOfLine (s : Store) (ref : ProgramRef) (line : Int) : Except Error Int :=
  match s.program? ref with
  | none => .ok (-1)
  | some p => lineOffset p.buffer.text line

end Keystroke
