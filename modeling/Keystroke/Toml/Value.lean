import Keystroke.Machine.Variables

set_option autoImplicit false

/-! # TOML values

The values of a configuration file, as they are written and as they are kept in tables. -/

namespace Keystroke.Toml

/-- A value. -/
inductive Value where
  | string (text : Bytes)
  | integer (n : Int)
  | float (bits : UInt64)
  | boolean (b : Bool)
  | datetime (text : Bytes)
  | array (items : List Value)
  | table (entries : List (Bytes × Value))
  | tables (items : List (List (Bytes × Value)))

/-- The entries of a table by key. -/
abbrev Table := Assoc Bytes Value

/-- The keys that lead from the whole document to a value. -/
abbrev Path := List Bytes

mutual

/-- A value as it is written. -/
inductive Term where
  | scalar (v : Value)
  | array (items : List Term)
  | inlineTable (pairs : List Pair)

/-- A key with points between its parts, and the value that it is given. -/
inductive Pair where
  | mk (key : Path) (value : Term)

end

/-- A line of a document. -/
inductive Line where
  /-- A header for one table, or for another one under the same name. -/
  | header (another : Bool) (key : Path)
  | pair (p : Pair)

/-- A key in small letters. The long s and the sign for kelvin are letters of the alphabet too. -/
def foldCase : Bytes → Bytes
  | 0xC5 :: 0xBF :: rest => ascii 's' :: foldCase rest
  | 0xE2 :: 0x84 :: 0xAA :: rest => ascii 'k' :: foldCase rest
  | b :: rest => lowerAscii b :: foldCase rest
  | [] => []

namespace Table

/-- The table at the end of a path. Of several tables under one name the last one is meant. -/
def tableAt? : Path → Table → Option Table
  | [], t => some t
  | key :: keys, t =>
    match t.find? key with
    | some (.table inner) => tableAt? keys inner
    | some (.tables items) => tableAt? keys (items.getLast?.getD [])
    | _ => none

def within (change : Table → Table) : Path → Table → Option Table
  | [], t => some (change t)
  | key :: keys, t =>
    match t.find? key with
    | some (.table inner) => do
      let inner ← within change keys inner
      return t.put key (.table inner)
    | some (.tables items) => do
      let inner ← within change keys (items.getLast?.getD [])
      return t.put key (.tables (items.dropLast ++ [inner]))
    | _ => none

/-- Gives a value to the key that a path ends in; missing tables on the way are made. -/
def putAt (v : Value) : Path → Table → Option Table
  | [], t => some t
  | [key], t => some (t.put key v)
  | key :: keys, t =>
    match t.find? key with
    | none => (putAt v keys []).map fun inner => t.put key (.table inner)
    | some (.table inner) => (putAt v keys inner).map fun inner => t.put key (.table inner)
    | some _ => none

/-- The values of the keys that are the given name up to the case of letters. -/
def named (t : Table) (name : Bytes) : List Value :=
  (t.filter fun entry => foldCase entry.1 = name).map (·.2)

end Table

end Keystroke.Toml
