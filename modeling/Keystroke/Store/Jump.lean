import Keystroke.Store.Label

set_option autoImplicit false

/-! # Targets of jumps

A jump keeps the offset it leads to in four bytes behind its header. The target is looked up when
the line is first reached, and forgotten when the program is edited. -/

namespace Keystroke

def writeTarget (text : Bytes) (pc : Nat) (target : Int32) : Except Error Bytes :=
  let start := pc + Header.size
  if text.length < start + Header.cacheSize then .error .outOfBounds
  else .ok (text.take start ++ targetBytes target ++ text.drop (start + Header.cacheSize))

/-- Forgets the targets of all jumps in the lines of `rest`; the first argument bounds them. A line
    that cannot be read ends the scan. -/
def clearTargets : Nat → Bytes → Except Error Bytes
  | _, [] => .ok []
  | 0, rest => .ok rest
  | count + 1, rest =>
    match Header.read? rest with
    | none => .error .outOfBounds
    | some h => do
      let rest ← if h.cached then writeTarget rest 0 targetUnknown else pure rest
      match lineSize rest with
      | .error _ => return rest
      | .ok size =>
        let more ← clearTargets count (rest.drop size)
        return rest.take size ++ more

namespace Store

/-- Forgets the targets of a program's jumps. Unless forced, a program that is known to have none
    is left alone. -/
def invalidate (ref : ProgramRef) (force : Bool) : Edit Unit := do
  match (← get).program? ref with
  | none => return
  | some p =>
    if !force && p.cachesClear then return
    else
      let text ← Edit.ofExcept (clearTargets p.buffer.text.length p.buffer.text)
      modify (·.setProgram ref
        { p with buffer := { p.buffer with text := text }, cachesClear := true })

/-- Reads the line at an offset. The target of a jump is looked up and kept when it is unknown. -/
def resolveTarget (ref : ProgramRef) (pc : Int) : Edit (Instr × Nat) := do
  let p ← getProgram ref
  let text := p.buffer.text
  let (line, size) ← Edit.ofExcept ((decodeAt text pc).mapError .ofInstrFault)
  let operand := line.operand
  if !hasJumpCache line.command operand.kind || operand.target ≠ targetUnknown then
    return (line, size)
  else
    let s ← get
    let target ← Edit.ofExcept <|
      if line.command = .gtol || line.command = .xeql then
        (lineOffset text operand.num.toInt).map Int32.ofInt
      else s.findLocal ref (pc + size) operand
    let text ← Edit.ofExcept (writeTarget text pc.toNat target)
    modify (·.setProgram ref
      { p with buffer := { p.buffer with text := text }, cachesClear := false })
    return ({ line with operand := { operand with target := target } }, size)

end Store

end Keystroke
