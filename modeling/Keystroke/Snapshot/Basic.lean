import Keystroke.Cbor.Item
import Keystroke.Machine.Variables

set_option autoImplicit false

/-! # Snapshots

A snapshot holds what is saved of a session: the bytes of its programs, the source of each equation
with its fingerprint, and the variables. It is written as a map with the numbers of its fields as
keys; empty fields are left out. -/

namespace Keystroke

def snapshotVersion : UInt8 := 1

/-- A saved equation. -/
structure SavedEquation where
  fingerprint : Bytes
  source : Bytes
  compat : Bool
deriving DecidableEq, Repr

/-- The saved state of a session. -/
structure Snapshot where
  version : UInt8 := snapshotVersion
  programs : List Bytes := []
  equations : List SavedEquation := []
  reals : Assoc Bytes Float := []
  /-- The elements of each matrix. One without elements may have nothing instead. -/
  matrices : Assoc Bytes (Option (List Float)) := []
deriving DecidableEq

open Cbor

/-- Shorter names come first; names of one length are in bytewise order. -/
def shorterFirst (a b : Bytes) : Bool :=
  if a.length = b.length then bytesLE a b else a.length < b.length

/-- A map with the numbers of its fields as keys. -/
def Cbor.Item.record (fields : List (Nat × Item)) : Item :=
  .map (fields.map fun f => (.unsigned f.1, f.2))

namespace SavedEquation

def fields (e : SavedEquation) : List (Nat × Item) :=
  [(1, .bytes e.fingerprint), (2, .text e.source)] ++ if e.compat then [(3, .bool true)] else []

def toItem (e : SavedEquation) : Item := .record e.fields

end SavedEquation

namespace Snapshot

def listItem (items : List Item) : Item := if items.isEmpty then .null else .array items

def realItem (x : Float) : Item := .float x.toBits

def elementsItem : Option (List Float) → Item
  | some elements => .array (elements.map realItem)
  | none => .null

/-- Values in the order in which they are written. -/
def sorted {β : Type} (values : Assoc Bytes β) : Assoc Bytes β :=
  values.mergeSort fun a b => shorterFirst a.1 b.1

def namedItem {β : Type} (item : β → Item) (values : Assoc Bytes β) : Item :=
  .map <| (sorted values).map fun (name, value) => (.text name, item value)

/-- A field by its number, left out when it has no elements. -/
def field {α : Type} (key : Nat) (values : List α) (item : Item) : List (Nat × Item) :=
  if values.isEmpty then [] else [(key, item)]

def fields (s : Snapshot) : List (Nat × Item) :=
  [(1, .unsigned s.version.toNat), (2, listItem (s.programs.map .bytes))]
    ++ field 3 s.equations (.array (s.equations.map SavedEquation.toItem))
    ++ field 4 s.reals (namedItem realItem s.reals)
    ++ field 5 s.matrices (namedItem elementsItem s.matrices)

def toItem (s : Snapshot) : Item := .record s.fields

end Snapshot

end Keystroke
