import Keystroke.Machine.CallStack
import Keystroke.Machine.Variables
import Keystroke.Store.Edit

set_option autoImplicit false

/-! # Sessions

A session is a store with the machine that runs its programs: the call stack, the variables, the
stack of numbers and the current place. Pending returns point into program bytes, so an edit of a
user program drops them. -/

namespace Keystroke

/-- What a level that declared its inputs and outputs has noted: the height of the stack below the
    inputs, and the number of outputs. -/
structure FuncRecord where
  base : Int
  outputs : Int
deriving DecidableEq, Repr

/-- The state of a running calculator. -/
structure Session where
  store : Store
  calls : CallStack
  vars : Variables := {}
  stack : List Float := []
  lastX : Float := 0
  current : ProgramRef := .none
  pc : Int := 0
  running : Bool := false
  locals : Assoc Nat (Assoc Bytes Float) := []
  funcs : Assoc Nat FuncRecord := []
  /-- The variable that is being solved for; empty when there is none. -/
  solvingFor : Bytes := []
  /-- The greatest number of steps of a run; no limit unless positive. -/
  stepLimit : Int := 0
deriving DecidableEq

/-- An operation on a session that may fail. -/
abbrev Machine := EStateM Error Session

def Machine.ofExcept {α : Type} (r : Except Error α) : Machine α := fun s =>
  match r with
  | .ok a => .ok a s
  | .error e => .error e s

namespace Session

def new (options : Options) : Except Error Session := do
  let store ← Store.new options
  return { store := store, calls := .new store.options.maxDepth }

/-! ## Pending returns -/

/-- Enters a level; the program that is returned to is kept alive. -/
def pushReturn (ref : ProgramRef) (pc : Int) : Machine Unit := do
  let s ← get
  let calls ← Machine.ofExcept (s.calls.push ref pc)
  let store := match ref with
    | .solver | .integrator => s.store
    | _ => s.store.retain ref
  set { s with calls := calls, store := store }

def popReturn : Machine Popped := do
  let s ← get
  let (popped, calls) ← Machine.ofExcept s.calls.pop
  let store := match popped.frame.ref with
    | .solver | .integrator => s.store
    | ref => if popped.top then s.store else s.store.release ref
  set { s with calls := calls, store := store }
  return popped

def popReturns : Nat → Machine Unit
  | 0 => pure ()
  | count + 1 => do
    let _ ← popReturn
    popReturns count

/-- Leaves all levels, level zero included. -/
def clearCalls : Machine Unit := do
  popReturns ((← get).calls.level + 1)

/-- Leaves levels through the innermost call by the solver; the first argument bounds them. Says
    whether the level to stop at was passed, and whether there was such a call. -/
def unwindFrom : Nat → Bool → Machine (Bool × Bool)
  | 0, stop => return (stop, false)
  | count + 1, stop => do
    let popped ← popReturn
    let stop := stop || popped.stop
    if popped.frame.ref = .solver then return (stop, true) else unwindFrom count stop

def unwindUntilSolve : Machine (Bool × Bool) := do
  unwindFrom (← get).calls.level false

def clearReturns : Machine Unit := do
  modify fun s => { s with running := false }
  clearCalls
  modify fun s => { s with locals := [], funcs := [] }

def reset : Machine Unit := do
  clearReturns
  modify fun s => { s with stack := [] }

/-- Runs an operation on the store. When it was an edit of a user program, pending returns are
    dropped. -/
def edit {α : Type} (op : Edit α) : Machine α := fun s =>
  let notify (before : Nat) (store : Store) : EStateM.Result Error Session Unit :=
    let s := { s with store := store }
    if store.edits = before then .ok () s else clearReturns s
  match op s.store with
  | .ok a store =>
    match notify s.store.edits store with
    | .ok _ s => .ok a s
    | .error e s => .error e s
  | .error e store =>
    match notify s.store.edits store with
    | .ok _ s => .error e s
    | .error e s => .error e s

end Session

end Keystroke
