import Keystroke.Cbor.Reader
import Keystroke.Proofs.Cbor.Number
import Keystroke.Proofs.Fingerprint.Serialize

set_option autoImplicit false

/-! # Items and their bytes

The bytes of an item are read as that item, and what stands behind them is left
(`readNested_encode`), if numbers and lengths fit into their heads, texts are UTF-8, and the limits
on nesting and on elements are kept. -/

namespace Keystroke.Cbor

variable {n major info size : Nat} {item : Item}

/-! ## Heads -/

theorem natOfBytes_append (bytes : Bytes) (b : UInt8) :
    natOfBytes (bytes ++ [b]) = natOfBytes bytes * 256 + b.toNat := by
  simp [natOfBytes]

theorem natOfBytes_bigEndian {width : Nat} (h : n < 256 ^ width) :
    natOfBytes (bigEndian width n) = n := by
  induction width generalizing n with
  | zero =>
    have hzero : natOfBytes (bigEndian 0 n) = 0 := rfl
    omega
  | succ width ih =>
    rw [bigEndian, natOfBytes_append, ih (by omega), Nat.toUInt8_eq, UInt8.toNat_ofNat']
    omega

theorem takeExactly?_append (bytes rest : Bytes) :
    takeExactly? bytes.length (bytes ++ rest) = some (bytes, rest) := by
  simp [takeExactly?]

theorem toNat_first (hm : major < 8) (hi : info < 32) :
    (major * 32 + info).toUInt8.toNat / 32 = major ∧
      (major * 32 + info).toUInt8.toNat % 32 = info := by
  rw [Nat.toUInt8_eq, UInt8.toNat_ofNat']
  omega

theorem readHead_long (hm : major < 8) (hinfo : 24 ≤ info) (hsize : argumentSize? info = some size)
    (hn : n < 256 ^ size) (hsimple : ¬ (major = 7 ∧ info = 24 ∧ n < 32)) (rest : Bytes) :
    readHead ((major * 32 + info).toUInt8 :: (bigEndian size n ++ rest))
      = some (⟨major, info, some n⟩, rest) := by
  have hi : info < 28 := by
    unfold argumentSize? at hsize
    split at hsize
    · omega
    · split at hsize
      · assumption
      · cases hsize
  obtain ⟨hmajor, hlow⟩ := toNat_first hm (by omega : info < 32)
  have htake := takeExactly?_append (bigEndian size n) rest
  rw [length_bigEndian] at htake
  have hlong : ¬ info < 24 := by omega
  have hopen : ¬ info = 31 := by omega
  simp only [readHead, hmajor, hlow, hsize, htake, hopen, hlong, if_false, Option.bind_eq_bind,
    Option.bind_some, natOfBytes_bigEndian hn]
  rw [if_neg (by simpa [and_assoc] using hsimple)]

/-- The low bits of the first byte of a head. -/
def headInfo (n : Nat) : Nat :=
  if n < 24 then n
  else if n < 2 ^ 8 then 24
  else if n < 2 ^ 16 then 25
  else if n < 2 ^ 32 then 26
  else 27

theorem readHead_head (hm : major < 8) (hn : n < 2 ^ 64) (hsimple : major = 7 → n < 24)
    (rest : Bytes) :
    readHead (head major n ++ rest) = some (⟨major, headInfo n, some n⟩, rest) := by
  unfold head headInfo
  simp only [Nat.pow_eq]
  split
  · next hshort =>
    obtain ⟨hmajor, hlow⟩ := toNat_first hm (by omega : n < 32)
    have hopen : ¬ n = 31 := by omega
    have hsize : argumentSize? n = some 0 := if_pos hshort
    have htake : takeExactly? 0 rest = some ([], rest) := rfl
    simp only [List.cons_append, List.nil_append, readHead, hmajor, hlow, hopen, hshort, hsize,
      htake, if_false, if_true, Option.bind_eq_bind, Option.bind_some]
    rw [if_neg (by simp only [Bool.and_eq_true, decide_eq_true_eq]; omega)]
  · split
    · exact readHead_long hm (by decide) rfl (by omega) (by omega) rest
    · split
      · exact readHead_long hm (by decide) rfl (by omega) (by omega) rest
      · split
        · exact readHead_long hm (by decide) rfl (by omega) (by omega) rest
        · exact readHead_long hm (by decide) rfl (by omega) (by omega) rest

theorem startsWithTag_head (hm : major < 8) (hne : major ≠ 6) (rest : Bytes) :
    startsWithTag (head major n ++ rest) = false := by
  have hfirst {info : Nat} (hi : info < 32) (more : Bytes) :
      startsWithTag ((major * 32 + info).toUInt8 :: more) = false := by
    simp only [startsWithTag, (toNat_first hm hi).1, hne, decide_false]
  unfold head
  split
  · exact hfirst (by omega) _
  · split
    · exact hfirst (by decide) _
    · split
      · exact hfirst (by decide) _
      · split <;> exact hfirst (by decide) _

/-! ## Items -/

namespace Item

/-- The item can be written and read with `depth` levels of nesting. -/
inductive Fits : Nat → Item → Prop
  | unsigned {depth n : Nat} (h : n < 2 ^ 64) : Fits depth (.unsigned n)
  | bytes {depth : Nat} {b : Bytes} (h : b.length < 2 ^ 64) : Fits depth (.bytes b)
  | text {depth : Nat} {b : Bytes} (h : b.length < 2 ^ 64) (hutf8 : isUtf8 b = true) :
      Fits depth (.text b)
  | array {depth : Nat} {items : List Item} (hcount : items.length ≤ maxElements)
      (h : ∀ item ∈ items, Fits depth item) : Fits (depth + 1) (.array items)
  | map {depth : Nat} {entries : List (Item × Item)} (hcount : entries.length ≤ maxElements)
      (hkeys : ∀ e ∈ entries, Fits depth e.1) (hvalues : ∀ e ∈ entries, Fits depth e.2) :
      Fits (depth + 1) (.map entries)
  | simple {depth n : Nat} (h : n < 24) : Fits depth (.simple n)
  | float {depth : Nat} {bits : UInt64} (h : oneNaN bits = bits) : Fits depth (.float bits)

theorem encodeAll_eq_flatMap (items : List Item) : encodeAll items = items.flatMap encode := by
  induction items with
  | nil => rfl
  | cons item items ih => rw [encodeAll, ih, List.flatMap_cons]

theorem encodeEntries_eq_flatMap (entries : List (Item × Item)) :
    encodeEntries entries = entries.flatMap fun e => e.1.encode ++ e.2.encode := by
  induction entries with
  | nil => rfl
  | cons e entries ih => rw [encodeEntries, ih, List.flatMap_cons]

end Item

/-- What may be nested in an item that is read with `depth` levels. -/
def innerOf : Nat → Inner
  | 0 => none
  | depth + 1 => some (readNested depth)

theorem readNested_eq (depth : Nat) : readNested depth = readItem (innerOf depth) := by
  cases depth <;> rfl

theorem readItem_head (inner? : Inner) (hm : major < 8) (hne : major ≠ 6) (rest : Bytes) :
    readItem inner? (head major n ++ rest) = readUntagged inner? (head major n ++ rest) := by
  simp [readItem, startsWithTag_head hm hne]

theorem readMany_flatMap {α : Type} {inner : Bytes → Option (α × Bytes)} {write : α → Bytes}
    {items : List α} (h : ∀ a ∈ items, ∀ rest, inner (write a ++ rest) = some (a, rest))
    (rest : Bytes) :
    readMany inner items.length (items.flatMap write ++ rest) = some (items, rest) := by
  induction items with
  | nil => rfl
  | cons a items ih =>
    have hrest := ih fun b hb => h b (List.mem_cons_of_mem a hb)
    simp [readMany, h a (by simp), hrest]

theorem readItem_primitive (inner? : Inner) (hsize : argumentSize? info = some size)
    (hinfo : 25 ≤ info) (hn : n < 256 ^ size) (rest : Bytes) :
    readItem inner? ((7 * 32 + info).toUInt8 :: (bigEndian size n ++ rest))
      = some (primitive ⟨7, info, some n⟩ n, rest) := by
  have hi : info < 32 := by
    unfold argumentSize? at hsize
    repeat' split at hsize
    all_goals first | omega | cases hsize
  have htag : startsWithTag ((7 * 32 + info).toUInt8 :: (bigEndian size n ++ rest)) = false := by
    simp only [startsWithTag, (toNat_first (by decide : 7 < 8) hi).1]
    rfl
  have hhead := readHead_long (by decide : 7 < 8) (by omega) hsize hn (by omega) rest
  rw [readItem, htag, if_neg Bool.false_ne_true, readUntagged, hhead]
  rfl

theorem readItem_floatBytes (inner? : Inner) (bits : UInt64) (rest : Bytes) :
    readItem inner? (floatBytes bits ++ rest) = some (.float (oneNaN bits), rest) := by
  unfold floatBytes
  cases hhalf : Width.half.narrow? bits with
  | some narrowed =>
    obtain ⟨hwiden, hlt⟩ := Width.widen_narrow? Width.narrow_half hhalf
    rw [← hwiden]
    exact readItem_primitive inner? (rfl : argumentSize? 25 = some 2) (by decide) hlt rest
  | none =>
    cases hsingle : Width.single.narrow? bits with
    | some narrowed =>
      obtain ⟨hwiden, hlt⟩ := Width.widen_narrow? Width.narrow_single hsingle
      rw [← hwiden]
      exact readItem_primitive inner? (rfl : argumentSize? 26 = some 4) (by decide) hlt rest
    | none =>
      have hwhole : oneNaN bits = bits.toNat.toUInt64 := by
        rw [Width.oneNaN_of_narrow?_eq_none hhalf]
        simp
      rw [hwhole]
      exact readItem_primitive inner? (rfl : argumentSize? 27 = some 8) (by decide) bits.toNat_lt
        rest

theorem readNested_encode {depth : Nat} (h : item.Fits depth) (rest : Bytes) :
    readNested depth (item.encode ++ rest) = some (item, rest) := by
  -- What is nested is one level deeper, and the bytes behind it are those of its neighbours.
  induction h generalizing rest with
  | @unsigned depth n hn =>
    rw [readNested_eq, Item.encode, readItem_head _ (by decide) (by decide)]
    simp [readUntagged, readHead_head (by decide : 0 < 8) hn]
  | @bytes depth b hb =>
    rw [readNested_eq, Item.encode, List.append_assoc, readItem_head _ (by decide) (by decide)]
    simp [readUntagged, readHead_head (by decide : 2 < 8) hb, readString, takeExactly?_append]
  | @text depth b hb hutf8 =>
    rw [readNested_eq, Item.encode, List.append_assoc, readItem_head _ (by decide) (by decide)]
    simp [readUntagged, readHead_head (by decide : 3 < 8) hb, readString, takeExactly?_append,
      textItem, hutf8]
  | @array depth items hcount _ ih =>
    have hlen : items.length < 2 ^ 64 := Nat.lt_of_le_of_lt hcount (by decide)
    rw [readNested_eq, Item.encode, List.append_assoc, readItem_head _ (by decide) (by decide)]
    simp [readUntagged, readHead_head (by decide : 4 < 8) hlen, innerOf, readElements, hcount,
      Item.encodeAll_eq_flatMap, readMany_flatMap ih]
  | @map depth entries hcount _ _ hkeys hvalues =>
    have hlen : entries.length < 2 ^ 64 := Nat.lt_of_le_of_lt hcount (by decide)
    have hpairs : ∀ e ∈ entries, ∀ rest, readPair (readNested depth)
        ((e.1.encode ++ e.2.encode) ++ rest) = some (e, rest) := by
      intro e he rest
      simp [readPair, hkeys e he, hvalues e he]
    rw [readNested_eq, Item.encode, List.append_assoc, readItem_head _ (by decide) (by decide)]
    simp [readUntagged, readHead_head (by decide : 5 < 8) hlen, innerOf, readElements, hcount,
      Item.encodeEntries_eq_flatMap, readMany_flatMap hpairs]
  | @simple depth n hn =>
    -- Below 24 the number is in the first byte, so it is not taken for the format of a number.
    have hinfo : headInfo n = n := if_pos hn
    have hread : primitive ⟨7, n, some n⟩ n = .simple n := by
      simp only [primitive]
      rw [if_neg (by omega), if_neg (by omega), if_neg (by omega)]
    rw [readNested_eq, Item.encode, readItem_head _ (by decide) (by decide)]
    simp [readUntagged, readHead_head (by decide : 7 < 8) (by omega) fun _ => hn, hinfo, hread]
  | @float depth bits hbits =>
    rw [readNested_eq, Item.encode, readItem_floatBytes, hbits]

theorem Item.decode?_encode (h : item.Fits maxDepth) : Item.decode? item.encode = some item := by
  have hread := readNested_encode h []
  rw [List.append_nil] at hread
  rw [Item.decode?, hread]

end Keystroke.Cbor
