import Keystroke.Cbor.Reader
import Keystroke.Snapshot.Basic

set_option autoImplicit false

/-! # Reading snapshots

Fields are read leniently: nothing stands for the empty value of any field, tags are passed over,
numbers may be integers, byte strings may be arrays of bytes, and fields that are not known are
ignored. Of a field that occurs twice the first one counts, of a variable that occurs twice the
last one. Nothing in place of a variable's name or number repeats the one before it. -/

namespace Keystroke

open Cbor

namespace Cbor.Item

def isNull : Item → Bool
  | simple n => n = 22 || n = 23
  | _ => false

/-- The item below its tags. A big integer keeps its tag; tags that say of which type their content
    is are refused on any other. -/
def untagged? : Item → Option Item
  | tagged tag item =>
    match tag, item with
    | 0, text _ | 0, malformedText => item.untagged?
    | 0, _ => none
    | 1, unsigned _ | 1, negative _ | 1, float _ => item.untagged?
    | 1, _ => none
    | 2, bytes b => some (.tagged 2 (.bytes b))
    | 3, bytes b => some (.tagged 3 (.bytes b))
    | 2, _ | 3, _ => none
    | _, _ => item.untagged?
  | item => some item

/-- The integer that an untagged item stands for: an integer of 64 bits, or a simple value. -/
def toInt? : Item → Option Int
  | unsigned n => some n
  | negative n => if n < Nat.pow 2 63 then some (-1 - n) else none
  | simple n => if 20 ≤ n && n ≤ 23 then none else some n
  | tagged 2 (bytes b) => if natOfBytes b < Nat.pow 2 64 then some (natOfBytes b) else none
  | tagged 3 (bytes b) => if natOfBytes b < Nat.pow 2 63 then some (-1 - natOfBytes b) else none
  | _ => none

/-- Reads the item below its tags; nothing gives the empty value. -/
def read? {α : Type} (empty : α) (f : Item → Option α) (item : Item) : Option α := do
  let item ← item.untagged?
  if item.isNull then some empty else f item

def toByte? : Item → Option UInt8 := read? 0 fun item => do
  let n ← item.toInt?
  if 0 ≤ n && n < 256 then some n.toNat.toUInt8 else none

def toFloatOr? (empty : Float) : Item → Option Float := read? empty fun
  | float bits => some (Float.ofBits bits)
  | item => item.toInt?.map fun n => Float.ofBits (Binary64.ofInt n)

def toFloat? : Item → Option Float := toFloatOr? 0

def toBool? : Item → Option Bool := read? false fun
  | simple 20 => some false
  | simple 21 => some true
  | _ => none

def toTextOr? (empty : Bytes) : Item → Option Bytes := read? empty fun
  | text b => some b
  | _ => none

def toText? : Item → Option Bytes := toTextOr? []

def toList? {α : Type} (f : Item → Option α) : Item → Option (List α) := read? [] fun
  | array items => items.mapM f
  | _ => none

def toElements? : Item → Option (Option (List Float)) := read? none fun
  | array items => (items.mapM toFloat?).map some
  | _ => none

def toBytes? : Item → Option Bytes := read? [] fun
  | bytes b | tagged _ (bytes b) => some b
  | array items => items.mapM toByte?
  | _ => none

/-- A byte string of a fixed length: what is longer is cut, what is shorter is filled with
    zeros. -/
def toFixedBytes? (length : Nat) : Item → Option Bytes :=
  let fill (b : Bytes) : Bytes := b.take length ++ List.replicate (length - b.length) 0
  read? (fill []) fun
  | bytes b | tagged _ (bytes b) => some (fill b)
  | array items => ((items.take length).mapM toByte?).map fill
  | _ => none

/-- Adds entries of a map to values by name, the name and the value before them being given. -/
def addNamed? {β : Type} (f : β → Item → Option β) : Bytes → β → List (Item × Item) →
    Assoc Bytes β → Option (Assoc Bytes β)
  | _, _, [], values => some values
  | name, value, (key, item) :: rest, values => do
    let name ← key.toTextOr? name
    let value ← f value item
    addNamed? f name value rest (values.put name value)

/-- Values by name, each read with the value before it, of which `first` stands in front. -/
def toNamed? {β : Type} (first : β) (f : β → Item → Option β) : Item → Option (Assoc Bytes β) :=
  read? [] fun
  | map entries => addNamed? f [] first entries []
  | _ => none

/-- The number of the field that a key names; zero when there is no such field. Fields are named by
    their numbers or by their digits. -/
def toFieldNumber? : Item → Option Nat
  | unsigned n => some n
  | negative n => if n < Nat.pow 2 63 then some 0 else none
  | text [digit] => some (if isDigitByte digit then digit.toNat - 48 else 0)
  | text _ => some 0
  | _ => none

def toFields? : Item → Option (List (Nat × Item)) := read? [] fun
  | map entries => entries.mapM fun (key, value) => do return (← key.toFieldNumber?, value)
  | _ => none

end Cbor.Item

def readField {α : Type} (fields : List (Nat × Item)) (key : Nat) (empty : α)
    (f : Item → Option α) : Option α :=
  match fields.lookup key with
  | some item => f item
  | none => some empty

/-- Thirty-two zeros, which is what a missing fingerprint is read as. -/
def noFingerprint : Bytes := List.replicate 32 0

namespace SavedEquation

def ofItem? (item : Item) : Option SavedEquation := do
  let fields ← item.toFields?
  return {
    fingerprint := ← readField fields 1 noFingerprint (Item.toFixedBytes? 32)
    source := ← readField fields 2 [] Item.toText?
    compat := ← readField fields 3 false Item.toBool? }

end SavedEquation

namespace Snapshot

def ofItem? (item : Item) : Option Snapshot := do
  let fields ← item.toFields?
  return {
    version := ← readField fields 1 0 Item.toByte?
    programs := ← readField fields 2 [] (Item.toList? Item.toBytes?)
    equations := ← readField fields 3 [] (Item.toList? SavedEquation.ofItem?)
    reals := ← readField fields 4 [] (Item.toNamed? 0 Item.toFloatOr?)
    matrices := ← readField fields 5 [] (Item.toNamed? none fun _ => Item.toElements?) }

def checkVersion (s : Snapshot) : Except Error Unit :=
  if s.version = snapshotVersion then .ok ()
  else .error (.unsupportedVersion s.version.toNat)

/-- What writes snapshots as bytes and reads them, whatever their version. -/
structure Codec where
  marshal : Snapshot → Bytes
  unmarshal? : Bytes → Option Snapshot

/-- Reads a snapshot of the version that is in use. -/
def Codec.read (codec : Codec) (bytes : Bytes) : Except Error Snapshot :=
  match codec.unmarshal? bytes with
  | none => .error .unreadableSnapshot
  | some s => do
    s.checkVersion
    return s

/-- The codec in use: a snapshot is written as the canonical bytes of its item. -/
def canonicalCodec : Codec where
  marshal s := s.toItem.encode
  unmarshal? bytes := (Item.decode? bytes).bind ofItem?

def encode (s : Snapshot) : Bytes := canonicalCodec.marshal s

def decode (bytes : Bytes) : Except Error Snapshot := canonicalCodec.read bytes

end Snapshot

end Keystroke
