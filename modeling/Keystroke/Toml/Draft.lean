import Keystroke.Toml.Value

set_option autoImplicit false

/-! # TOML documents

A document is put together line by line. A table that exists only because a longer key passes
through it is open: one later line may define it, and what it holds stays, unless the key was last
given an array: then the new value takes its place. Keys that pass through an array open its path
first. Any other key is given a value once. The paths of the open tables and of the arrays are
noted without regard to which of several tables under one name they lie in. -/

namespace Keystroke.Toml

/-- A document that is being put together. -/
structure Draft where
  root : Table := []
  opened : List Path := []
  arrays : List Path := []

namespace Draft

def openPath (path : Path) (d : Draft) : Draft := { d with opened := path :: d.opened }

def closePath (path : Path) (d : Draft) : Draft :=
  { d with opened := d.opened.filter (· ≠ path) }

/-- Notes whether a key was given an array. The note for an empty key is made for the table that it
    lies in. -/
def record (context : Path) (key : Bytes) (isArray : Bool) (d : Draft) : Draft :=
  let path := if key.isEmpty && !context.isEmpty then context else context ++ [key]
  let others := d.arrays.filter (· ≠ path)
  { d with arrays := if isArray then path :: others else others }

/-- Puts a value under a key of the table at a path, whatever was there. -/
def put (context : Path) (key : Bytes) (v : Value) (d : Draft) : Option Draft := do
  let root ← d.root.within (·.put key v) context
  return { d with root := root }

def assign (context : Path) (key : Bytes) (v : Value) (d : Draft) : Option Draft := do
  let t ← d.root.tableAt? context
  let path := context ++ [key]
  if (t.find? key).isNone then d.put context key v
  else if !d.opened.contains path then none
  else if d.arrays.contains path then (d.closePath path).put context key v
  else some (d.closePath path)

/-- Makes the tables along some keys from a path on, open ones where there are none. -/
def makeTables : Path → List Bytes → Draft → Option Draft
  | _, [], d => some d
  | context, key :: keys, d => do
    let t ← d.root.tableAt? context
    let path := context ++ [key]
    match t.find? key with
    | none => makeTables path keys (← (d.openPath path).put context key (.table []))
    | some (.table _) | some (.tables _) => makeTables path keys d
    | some _ => none

def append (context : Path) (key : Bytes) (d : Draft) : Option Draft := do
  let t ← d.root.tableAt? context
  match t.find? key with
  | none => d.put context key (.tables [[]])
  | some (.tables items) => d.put context key (.tables (items ++ [[]]))
  | some _ => none

def define (another : Bool) (path : Path) (d : Draft) : Option Draft := do
  let key ← path.getLast?
  let d ← d.makeTables [] path.dropLast
  if another then d.append path.dropLast key else d.assign path.dropLast key (.table [])

/-- Passes through the tables that the first parts of a key name, and gives the path of the last. -/
def enter : Path → List Bytes → Draft → Option (Path × Draft)
  | context, [], d => some (context, d)
  | context, key :: keys, d => do
    let path := context ++ [key]
    enter path keys (← (d.openPath path).define false path)

end Draft

/-! ## Values and lines -/

def Term.isArray : Term → Bool
  | array _ => true
  | _ => false

mutual

/-- The value that is written for a key of the table at a path. Inline tables are made in the
    document too, so that their keys are checked there; `inArray` says that the value is an element
    of an array. -/
def Term.value? (context : Path) (key : Bytes) (inArray : Bool) : Term → Draft →
    Option (Value × Draft)
  | .scalar v, d => some (v, d)
  | .array items, d => do
    let (values, d) ← itemValues? context key items (d.record context key true)
    return (.array values, d)
  | .inlineTable pairs, d => do
    let path := context ++ [key]
    let (t, d) ← pairValues? path pairs [] (← (d.openPath path).define inArray path)
    return (.table t, d)

def itemValues? (context : Path) (key : Bytes) : List Term → Draft → Option (List Value × Draft)
  | [], d => some ([], d)
  | item :: items, d => do
    let (v, d) ← item.value? context key true d
    let (vs, d) ← itemValues? context key items d
    return (v :: vs, d)

/-- The inline table at a path, `t` being what it holds already. -/
def pairValues? (path : Path) : List Pair → Table → Draft → Option (Table × Draft)
  | [], t, d => some (t, d)
  | .mk key term :: pairs, t, d => do
    let last ← key.getLast?
    let (context, d) ← d.enter path key.dropLast
    let (v, d) ← term.value? context last false d
    let d ← d.assign context last v
    let t ← t.putAt v key
    pairValues? path pairs t (d.record context last term.isArray)

end

/-- Adds lines to a document; `context` is the path of the last header. -/
def Draft.addLines : Path → List Line → Draft → Option Draft
  | _, [], d => some d
  | _, .header another key :: lines, d => do
    let d ← d.define another key
    addLines key lines (d.record key [] false)
  | context, .pair p :: lines, d => do
    let (_, d) ← pairValues? context [p] [] d
    addLines context lines d

def document? (lines : List Line) : Option Table := do
  let d ← Draft.addLines [] lines {}
  return d.root

end Keystroke.Toml
