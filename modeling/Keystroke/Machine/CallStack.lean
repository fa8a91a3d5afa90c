import Keystroke.Error

set_option autoImplicit false

/-! # The call stack

Pending returns, innermost first. A level may also have saved the place of a matrix editor, which
takes two slots below the return of that level: the name of the matrix and the place in it. Level
zero has no return, so what it saved stands alone, and its flags are kept beside the slots. -/

namespace Keystroke

/-- The place of a matrix editor. -/
structure MatrixCursor where
  name : Bytes
  row : Int
  col : Int
deriving DecidableEq, Repr

/-- A slot of the call stack. -/
inductive Slot where
  /-- A return, whether its level saved a cursor, and whether it declared inputs and outputs. -/
  | pending (ref : ProgramRef) (pc : Int) (hasCursor hasFunc : Bool)
  | cursorName (name : Bytes)
  | cursorPlace (row col : Int)
deriving DecidableEq, Repr

namespace Slot

def kind : Slot → Nat
  | pending _ _ _ _ => 0
  | cursorName _ => 1
  | cursorPlace _ _ => 2

end Slot

/-- A pending return. -/
structure Frame where
  ref : ProgramRef
  pc : Int
  hasFunc : Bool
deriving DecidableEq, Repr

/-- What leaving a level gave back. -/
structure Popped where
  frame : Frame
  cursor : Option MatrixCursor := none
  stop : Bool := false
  /-- Whether this was level zero, which has no caller. -/
  top : Bool := false
deriving DecidableEq, Repr

/-- The call stack. -/
structure CallStack where
  slots : List Slot := []
  /-- The number of pending returns. -/
  level : Nat := 0
  /-- The greatest number of pending returns. -/
  max : Int
  baseCursor : Bool := false
  baseFunc : Bool := false
  solving : Bool := false
  integrating : Bool := false
  /-- The level whose return stops a run; none when negative. -/
  stopLevel : Int := -1
deriving DecidableEq, Repr

namespace CallStack

/-- An empty call stack; a bound that is not positive stands for 1024. -/
def new (max : Int) : CallStack := { max := if max ≤ 0 then 1024 else max }

/-- Enters a level that returns to an offset of a program. -/
def push (c : CallStack) (ref : ProgramRef) (pc : Int) : Except Error CallStack :=
  if (c.level : Int) = c.max then .error .returnStackFull
  else
    .ok { c with
      slots := .pending ref pc false false :: c.slots
      level := c.level + 1
      solving := c.solving || ref = .solver
      integrating := c.integrating || ref = .integrator }

def takeCursor : List Slot → Except Error (MatrixCursor × List Slot)
  | .cursorName name :: .cursorPlace row col :: rest => .ok (⟨name, row, col⟩, rest)
  | _ => .error .outOfBounds

/-- Saves a cursor at the current level; a level keeps the first one. -/
def pushCursor (c : CallStack) (cursor : MatrixCursor) : Except Error CallStack :=
  let saved := [Slot.cursorName cursor.name, .cursorPlace cursor.row cursor.col]
  if c.level = 0 then
    if c.baseCursor then .ok c
    else .ok { c with slots := saved ++ c.slots, baseCursor := true }
  else
    match c.slots with
    | .pending ref pc hasCursor hasFunc :: rest =>
      if hasCursor then .ok c
      else .ok { c with slots := .pending ref pc true hasFunc :: saved ++ rest }
    | _ => .error .outOfBounds

def markFunc (c : CallStack) : Except Error CallStack :=
  if c.level = 0 then .ok { c with baseFunc := true }
  else
    match c.slots with
    | .pending ref pc hasCursor _ :: rest =>
      .ok { c with slots := .pending ref pc hasCursor true :: rest }
    | _ => .error .outOfBounds

def hasFunc (c : CallStack) : Except Error Bool :=
  if c.level = 0 then .ok c.baseFunc
  else
    match c.slots with
    | .pending _ _ _ hasFunc :: _ => .ok hasFunc
    | _ => .error .outOfBounds

/-- Leaves level zero, which only gives back what it saved. -/
def popBase (c : CallStack) : Except Error (Popped × CallStack) := do
  let popped : Popped := { frame := ⟨.none, -1, c.baseFunc⟩, top := true }
  let left := { c with stopLevel := -1, baseFunc := false }
  if c.baseCursor then
    let (cursor, slots) ← takeCursor c.slots
    return ({ popped with cursor := some cursor },
      { left with slots := slots, baseCursor := false })
  else return (popped, left)

def pop (c : CallStack) : Except Error (Popped × CallStack) :=
  if c.level = 0 then c.popBase
  else
    match c.slots with
    | [] => .error .outOfBounds
    | .pending ref pc hasCursor hasFunc :: rest => do
      let level := c.level - 1
      let stop := (level : Int) ≤ c.stopLevel
      let (cursor, rest) ← if hasCursor then (takeCursor rest).map fun r => (some r.1, r.2)
        else pure (none, rest)
      return (
        { frame := ⟨ref, pc, hasFunc⟩, cursor := cursor, stop := stop },
        { c with
          slots := rest
          level := level
          solving := c.solving && ref ≠ .solver
          integrating := c.integrating && ref ≠ .integrator
          stopLevel := if stop then -1 else c.stopLevel })
    | slot :: _ => .error (.corruptCalls slot.kind)

/-- Drops the cursor of the current level if it belongs to the named matrix. -/
def popCursor (c : CallStack) (name : Bytes) : Except Error (Option MatrixCursor × CallStack) :=
  if c.level = 0 then
    if !c.baseCursor then .ok (none, c)
    else do
      let (cursor, slots) ← takeCursor c.slots
      if cursor.name = name then
        return (some cursor, { c with slots := slots, baseCursor := false })
      else return (none, c)
  else
    match c.slots with
    | .pending ref pc true hasFunc :: rest => do
      let (cursor, slots) ← takeCursor rest
      if cursor.name = name then
        return (some cursor, { c with slots := .pending ref pc false hasFunc :: slots })
      else return (none, c)
    | .pending _ _ false _ :: _ => .ok (none, c)
    | _ => .error .outOfBounds

def frames (c : CallStack) : List Frame :=
  c.slots.filterMap fun
    | .pending ref pc _ hasFunc => some ⟨ref, pc, hasFunc⟩
    | _ => none

end CallStack

end Keystroke
