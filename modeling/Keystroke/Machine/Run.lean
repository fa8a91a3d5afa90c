import Keystroke.Machine.Action
import Keystroke.Machine.Session

set_option autoImplicit false

/-! # Running programs

A step reads the line at the current place, does what its command says and goes on with the next
line, with the one a jump leads to, or past a line that a failed test skips. A step that fails
stops the machine and names the line. -/

namespace Keystroke.Session

/-- Where a line leads: the offset to go on at, and whether the line there is skipped. -/
structure Next where
  pc : Int
  skip : Bool := false

/-! ## The stack -/

def push (x : Float) : Machine Unit := modify fun s => { s with stack := x :: s.stack }

def top : Machine Float := do
  match (← get).stack with
  | x :: _ => return x
  | [] => throw .tooFewArguments

def pop : Machine Float := do
  let s ← get
  match s.stack with
  | x :: rest =>
    set { s with stack := rest }
    return x
  | [] => throw .tooFewArguments

def pop2 : Machine (Float × Float) := do
  let s ← get
  match s.stack with
  | x :: y :: rest =>
    set { s with stack := rest }
    return (x, y)
  | _ => throw .tooFewArguments

def setTop (x : Float) : Machine Unit := modify fun s => { s with stack := x :: s.stack.tail }

/-! ## Variables -/

/-- The innermost level, from the given one down, that has a local variable of the name. -/
def localLevel? (locals : Assoc Nat (Assoc Bytes Float)) (name : Bytes) : Nat → Option Nat
  | 0 => if ((locals.find? 0).bind (·.find? name)).isSome then some 0 else none
  | level + 1 =>
    if ((locals.find? (level + 1)).bind (·.find? name)).isSome then some (level + 1)
    else localLevel? locals name level

def levelOf? (s : Session) (name : Bytes) : Option Nat :=
  localLevel? s.locals name s.calls.level

def putLocal (s : Session) (level : Nat) (name : Bytes) (x : Float) : Session :=
  { s with locals := s.locals.put level (((s.locals.find? level).getD []).put name x) }

/-- The value of a name: of the innermost local variable, or of the session's variable. -/
def valueOf (s : Session) (name : Bytes) : Except Error Float :=
  match (s.levelOf? name).bind fun level => (s.locals.find? level).bind (·.find? name) with
  | some x => .ok x
  | none => s.vars.fetch name

/-- Gives a name a value, where it has one already or else among the session's variables. -/
def storeVariable (s : Session) (name : Bytes) (x : Float) : Session :=
  match s.levelOf? name with
  | some level => s.putLocal level name x
  | none => { s with vars := s.vars.store name x }

/-! ## Control -/

/-- Goes to the target of a jump, noting the way back for a call. -/
def jump (line : Instr) (next : Int) (call : Bool) : Machine Next := do
  if line.operand.kind = .text then
    match (← get).store.findGlobal? line.operand.text with
    | none => throw (.labelNameNotFound line.operand.text)
    | some (ref, pc) =>
      if call then pushReturn (← get).current next
      modify fun s => { s with current := ref }
      return { pc := pc }
  else if line.operand.target < 0 then throw .labelNotFound
  else
    if call then pushReturn (← get).current next
    return { pc := line.operand.target.toInt }

/-- The stack after a level that declared its outputs: they alone stay on what was below the
    inputs. -/
def keepOutputs (stack : List Float) (record : FuncRecord) : Except Error (List Float) :=
  let height : Int := stack.length
  let outputs := min record.outputs (height - record.base)
  if outputs < 0 then .error .outOfBounds
  else .ok (stack.take outputs.toNat ++ stack.drop (height - record.base).toNat)

/-- Cuts the stack down to the outputs that the level declared. -/
def takeOutputs (popped : Popped) (record? : Option FuncRecord) : Machine Unit := do
  if popped.frame.hasFunc then
    match record? with
    | none => pure ()
    | some record =>
      let stack ← Machine.ofExcept (keepOutputs (← get).stack record)
      modify fun s => { s with stack := stack }

/-- Goes to where the return leads, or stops at level zero. -/
def goBack (popped : Popped) (next : Int) : Machine Next := do
  if popped.top then
    modify fun s => { s with running := false }
    return { pc := next }
  else
    modify fun s => { s with current := popped.frame.ref }
    if popped.stop then modify fun s => { s with pc := popped.frame.pc, running := false }
    return { pc := popped.frame.pc }

def leave (next : Int) : Machine Next := do
  let level := (← get).calls.level
  let record? := (← get).funcs.find? level
  modify fun s => { s with locals := s.locals.remove level, funcs := s.funcs.remove level }
  let popped ← popReturn
  takeOutputs popped record?
  goBack popped next

def declare (n : Int) : Machine Unit := do
  let inputs := n.tdiv 10
  let s ← get
  let height : Int := s.stack.length
  if height < inputs then throw .tooFewArguments
  let calls ← Machine.ofExcept s.calls.markFunc
  set { s with
    calls := calls
    funcs := s.funcs.put s.calls.level ⟨height - inputs, n.tmod 10⟩ }

/-! ## Lines -/

/-- The name that a store or recall line has; other kinds of operand are not known. -/
def nameOperand (line : Instr) : Machine Bytes := do
  if line.operand.kind = .text then return line.operand.text
  else throw (.invalidInstr (.badOperand line.command line.operand.kind))

def storeLine (line : Instr) (op? : Option ArithOp) : Machine Unit := do
  let name ← nameOperand line
  let x ← top
  match op? with
  | none => modify (·.storeVariable name x)
  | some op =>
    let v ← Machine.ofExcept ((← get).valueOf name)
    let r ← Machine.ofExcept (op.eval v x)
    modify (·.storeVariable name r)

def recallLine (line : Instr) (op? : Option ArithOp) : Machine Unit := do
  let name ← nameOperand line
  let v ← Machine.ofExcept ((← get).valueOf name)
  match op? with
  | none => push v
  | some op =>
    let x ← top
    let r ← Machine.ofExcept (op.eval x v)
    setTop r

def arithLine (op : ArithOp) : Machine Unit := do
  let s ← get
  let (x, y) ← pop2
  match op.eval y x with
  | .ok r => modify fun s => { s with lastX := x, stack := r :: s.stack }
  | .error e =>
    set s
    throw e

def realLine (fn : RealFn) : Machine Unit := do
  let x ← top
  let r ← Machine.ofExcept (fn.eval x)
  modify fun s => { s with lastX := x, stack := r :: s.stack.tail }

def extremumLine (n : Int) (greatest : Bool) : Machine Unit := do
  let s ← get
  if n < 1 || (s.stack.length : Int) < n then throw .tooFewArguments
  match (s.stack.take n.toNat).reverse with
  | [] => throw .tooFewArguments
  | x :: rest => set { s with stack := extremumFrom greatest x rest :: s.stack.drop n.toNat }

/-- Does what a line says; `next` is the offset behind it. -/
def perform (line : Instr) (next : Int) : Machine Next := do
  let go : Next := { pc := next }
  match line.command.action? with
  | none => throw (.invalidInstr (.notSupported line.command))
  | some action =>
    match action with
    | .number =>
      push (Float.ofBits line.operand.value)
      return go
    | .nothing => return go
    | .clearX =>
      let _ ← pop
      push 0
      return go
    | .enter =>
      push (← top)
      return go
    | .swap =>
      let (x, y) ← pop2
      push x
      push y
      return go
    | .rollDown =>
      modify fun s => { s with stack := s.stack.tail ++ s.stack.take 1 }
      return go
    | .drop =>
      let _ ← pop
      return go
    | .lastX =>
      push (← get).lastX
      return go
    | .pi =>
      push (Float.ofBits 0x400921FB54442D18)
      return go
    | .arith op =>
      arithLine op
      return go
    | .real fn =>
      realLine fn
      return go
    | .store op? =>
      storeLine line op?
      return go
    | .fetch op? =>
      recallLine line op?
      return go
    | .storeLocal =>
      let x ← top
      modify fun s => s.putLocal s.calls.level line.operand.text x
      return go
    | .func =>
      declare line.operand.num.toInt
      return go
    | .leave => leave next
    | .jump call => jump line next call
    | .testZero c =>
      let x ← top
      return { pc := next, skip := !c.holds x 0 }
    | .testPair c =>
      match (← get).stack with
      | x :: y :: _ => return { pc := next, skip := !c.holds x y }
      | _ => throw .tooFewArguments
    | .compare c =>
      let (x, y) ← pop2
      push (truth (c.holds y x))
      return go
    | .connect c =>
      let (x, y) ← pop2
      push (truth (c.holds (y != 0) (x != 0)))
      return go
    | .invert =>
      let x ← pop
      push (truth (x == 0))
      return go
    | .skipUnless =>
      let x ← pop
      return { pc := next, skip := x == 0 }
    | .solving =>
      let s ← get
      push (truth (!s.solvingFor.isEmpty && s.solvingFor == line.operand.text))
      return go
    | .item =>
      let x ← top
      let v ← Machine.ofExcept ((← get).vars.item line.operand.text (indexOf x))
      setTop v
      return go
    | .extremum greatest =>
      extremumLine line.operand.num.toInt greatest
      return go

/-! ## Steps and runs -/

def halt (s : Session) : Session := { s with running := false }

/-- How far a skipped line reaches; nothing is skipped where there is no line. -/
def skippedSize (s : Session) (pc : Int) : Nat :=
  match s.store.text s.current with
  | .error _ => 0
  | .ok text =>
    match lineSizeAt text pc with
    | .ok size => size
    | .error _ => 0

/-- The error of a line that failed, with its number. An access outside a program's bytes has no
    number. -/
def lineError (s : Session) (c : Command) (e : Error) : Error :=
  if e.isCrash then e
  else
    match s.store.lineAt s.current s.pc with
    | .ok n => .atLine s.current n c e
    | .error crash => crash

def step : Machine Unit := fun s =>
  if !s.running then .ok () s
  else
    match Store.resolveTarget s.current s.pc s.store with
    | .error e store => .error e (halt { s with store := store })
    | .ok (line, size) store =>
      match perform line (s.pc + size) { s with store := store } with
      | .error e s => .error (s.lineError line.command e) s.halt
      | .ok next s =>
        if !s.running then .ok () s
        else if next.skip then .ok () { s with pc := next.pc + s.skippedSize next.pc }
        else .ok () { s with pc := next.pc }

def call (ref : ProgramRef) : Machine Unit := do
  let s ← get
  match s.store.program? ref with
  | none => throw (.invalidProgram ref)
  | some _ => set { s with current := ref, pc := 0, running := true }

/-- Steps until the machine stops, `steps` having been made already. A run without a limit may never
    stop; it has no outcome then. -/
def runFrom (steps : Nat) (s : Session) : Option (EStateM.Result Error Session Unit) :=
  if !s.running then some (.ok () s)
  else if 0 < s.stepLimit && s.stepLimit ≤ steps then some (.error (.stepLimit s.stepLimit) s.halt)
  else
    match step s with
    | .error e s => some (.error e s)
    | .ok _ s => by
      -- `apply`, unlike an application, puts no source position into the term.
      apply runFrom
      · exact steps + 1
      · exact s
partial_fixpoint

def run (cancelled : Bool) : Machine Unit := fun s =>
  if s.running && cancelled then .error .cancelled s.halt
  else (runFrom 0 s).getD (.error .endless s.halt)

def evaluate (ref : ProgramRef) (inputs : List Float) (cancelled : Bool) : Machine Float := do
  reset
  modify fun s => { s with stack := inputs.reverse }
  call ref
  run cancelled
  top

end Keystroke.Session
