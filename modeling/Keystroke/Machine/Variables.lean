import Keystroke.Error

set_option autoImplicit false

/-! # Variables

A name stands for a real number or for a matrix of one dimension, never for both. -/

namespace Keystroke

/-- Lists of values by key, each key at most once. -/
abbrev Assoc (κ : Type) (β : Type) := List (κ × β)

namespace Assoc

variable {κ β : Type} [DecidableEq κ]

def find? (m : Assoc κ β) (key : κ) : Option β :=
  match m with
  | [] => none
  | (k, v) :: rest => if k = key then some v else find? rest key

/-- Gives a key a value, in its old place or at the end. -/
def put (m : Assoc κ β) (key : κ) (value : β) : Assoc κ β :=
  match m with
  | [] => [(key, value)]
  | (k, v) :: rest => if k = key then (k, value) :: rest else (k, v) :: put rest key value

def remove (m : Assoc κ β) (key : κ) : Assoc κ β := m.filter fun kv => kv.1 ≠ key

end Assoc

/-- The variables of a session. -/
structure Variables where
  reals : Assoc Bytes Float := []
  matrices : Assoc Bytes (List Float) := []
deriving DecidableEq

namespace Variables

def fetch (v : Variables) (name : Bytes) : Except Error Float :=
  match v.reals.find? name with
  | some x => .ok x
  | none => .error (.noVariable name)

/-- Gives a real variable a value; a matrix of that name is gone. -/
def store (v : Variables) (name : Bytes) (x : Float) : Variables :=
  ⟨v.reals.put name x, v.matrices.remove name⟩

def item (v : Variables) (name : Bytes) (index : Int) : Except Error Float :=
  match v.matrices.find? name with
  | none => .error (.noMatrix name)
  | some elements =>
    if index < 1 then .error (.itemOutside name index)
    else
      match elements[(index - 1).toNat]? with
      | some x => .ok x
      | none => .error (.itemOutside name index)

/-- Stores a matrix; a real variable of that name is gone. -/
def setMatrix (v : Variables) (name : Bytes) (elements : List Float) : Variables :=
  ⟨v.reals.remove name, v.matrices.put name elements⟩

def names (v : Variables) : List Bytes :=
  (v.reals.map (·.1) ++ v.matrices.map (·.1)).mergeSort bytesLE

end Variables

end Keystroke
