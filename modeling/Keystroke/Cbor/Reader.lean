import Keystroke.Cbor.Item

set_option autoImplicit false

/-! # Reading CBOR

An item is read with every form that the format allows: longer heads than needed, strings in
pieces, arrays and maps that end with a break. Nesting is limited, and so is the number of elements
of an array or a map. -/

namespace Keystroke.Cbor

/-- How deep arrays and maps may be nested, empty ones included. -/
def maxDepth : Nat := 32

def maxElements : Nat := 131072

/-- The head of an item that is read: its type, the low bits of the first byte, and the number,
    which an item of indefinite length does not have. -/
structure Head where
  major : Nat
  info : Nat
  number? : Option Nat

def natOfBytes (bytes : Bytes) : Nat := bytes.foldl (fun n b => n * 256 + b.toNat) 0

/-- Takes exactly as many bytes as asked for. -/
def takeExactly? (count : Nat) (bytes : Bytes) : Option (Bytes × Bytes) :=
  if count ≤ bytes.length then some (bytes.take count, bytes.drop count) else none

def argumentSize? (info : Nat) : Option Nat :=
  if info < 24 then some 0
  else if info < 28 then some (Nat.pow 2 (info - 24))
  else none

def isOpenEnded (major : Nat) : Bool := 2 ≤ major && major ≤ 5

def readHead : Bytes → Option (Head × Bytes)
  | [] => none
  | first :: rest =>
    let major : Nat := first.toNat / 32
    let info : Nat := first.toNat % 32
    if info = 31 then (if isOpenEnded major then some (⟨major, info, none⟩, rest) else none)
    else do
      let size ← argumentSize? info
      let (argument, rest) ← takeExactly? size rest
      let n := if info < 24 then info else natOfBytes argument
      if major = 7 && info = 24 && n < 32 then none
      else some (⟨major, info, some n⟩, rest)

/-- Reads the pieces of a string up to the break; the first argument bounds them. -/
def readPieces (major : Nat) : Nat → Bytes → Option (List Bytes × Bytes)
  | 0, _ => none
  | bound + 1, bytes =>
    match bytes with
    | 0xFF :: rest => some ([], rest)
    | _ => do
      let (h, rest) ← readHead bytes
      let size ← if h.major = major then h.number? else none
      let (piece, rest) ← takeExactly? size rest
      let (pieces, rest) ← readPieces major bound rest
      return (piece :: pieces, rest)

def textItem (pieces : List Bytes) : Item :=
  if pieces.all isUtf8 then .text pieces.flatten else .malformedText

def readString (h : Head) (rest : Bytes) : Option (List Bytes × Bytes) :=
  match h.number? with
  | some size => (takeExactly? size rest).map fun r => ([r.1], r.2)
  | none => readPieces h.major (rest.length + 1) rest

def readMany {α : Type} (inner : Bytes → Option (α × Bytes)) : Nat → Bytes →
    Option (List α × Bytes)
  | 0, bytes => some ([], bytes)
  | count + 1, bytes => do
    let (item, rest) ← inner bytes
    let (items, rest) ← readMany inner count rest
    return (item :: items, rest)

/-- Reads items up to the break, at most as many as the first argument says. -/
def readUntilBreak {α : Type} (inner : Bytes → Option (α × Bytes)) : Nat → Bytes →
    Option (List α × Bytes)
  | _, 0xFF :: rest => some ([], rest)
  | 0, _ => none
  | count + 1, bytes => do
    let (item, rest) ← inner bytes
    let (items, rest) ← readUntilBreak inner count rest
    return (item :: items, rest)

def readElements {α : Type} (inner : Bytes → Option (α × Bytes)) (h : Head) (rest : Bytes) :
    Option (List α × Bytes) :=
  match h.number? with
  | some count => if count ≤ maxElements then readMany inner count rest else none
  | none => readUntilBreak inner maxElements rest

def readPair (inner : Bytes → Option (Item × Bytes)) (bytes : Bytes) :
    Option ((Item × Item) × Bytes) := do
  let (key, rest) ← inner bytes
  let (value, rest) ← inner rest
  return ((key, value), rest)

def primitive (h : Head) (n : Nat) : Item :=
  if h.info = 25 then .float (Width.half.widen n)
  else if h.info = 26 then .float (Width.single.widen n)
  else if h.info = 27 then .float n.toUInt64
  else .simple n

/-- A reader of what is nested in an item; `none` where nothing may be nested any more. -/
abbrev Inner := Option (Bytes → Option (Item × Bytes))

def readUntagged (inner? : Inner) (bytes : Bytes) : Option (Item × Bytes) := do
  let (h, rest) ← readHead bytes
  match h.major, h.number? with
  | 0, some n => some (.unsigned n, rest)
  | 1, some n => some (.negative n, rest)
  | 2, _ => (readString h rest).map fun r => (.bytes r.1.flatten, r.2)
  | 3, _ => (readString h rest).map fun r => (textItem r.1, r.2)
  | 4, _ => do
    let (items, rest) ← readElements (← inner?) h rest
    return (.array items, rest)
  | 5, _ => do
    let (entries, rest) ← readElements (readPair (← inner?)) h rest
    return (.map entries, rest)
  | 7, some n => some (primitive h n, rest)
  | _, _ => none

def startsWithTag : Bytes → Bool
  | [] => false
  | first :: _ => first.toNat / 32 = 6

/-- Reads an item. A tag directly behind a tag counts as nested. -/
def readItem (inner? : Inner) (bytes : Bytes) : Option (Item × Bytes) :=
  if startsWithTag bytes then do
    let (h, rest) ← readHead bytes
    let tag ← h.number?
    let (item, rest) ← if startsWithTag rest then (← inner?) rest else readUntagged inner? rest
    return (.tagged tag item, rest)
  else readUntagged inner? bytes

def readNested : Nat → Bytes → Option (Item × Bytes)
  | 0 => readItem none
  | depth + 1 => readItem (some (readNested depth))

def Item.decode? (bytes : Bytes) : Option Item :=
  match readNested maxDepth bytes with
  | some (item, []) => some item
  | _ => none

end Keystroke.Cbor
