import Keystroke.Proofs.Cbor.RoundTrip
import Keystroke.Proofs.Machine.Levels
import Keystroke.Snapshot.Reader

set_option autoImplicit false

/-! # The bytes of a snapshot

A snapshot is read back from its bytes as it was written, by every codec that writes the canonical
form and reads it (`Snapshot.Codec.Canonical.read_marshal`); the one in use does. The order of
variables is that of their names then, empty fields are left out and read as empty ones, and
numbers are the same bit for bit. A snapshot of another version is refused for that reason. -/

namespace Keystroke

variable {depth : Nat}

open Cbor List Item

/-! ## Lists and records -/

theorem mapM_map_eq_some {α β : Type} {read : β → Option α} {write : α → β} {xs : List α}
    (h : ∀ x ∈ xs, read (write x) = some x) : (xs.map write).mapM read = some xs := by
  induction xs with
  | nil => rfl
  | cons x xs ih =>
    simp [h x (by simp), ih fun y hy => h y (mem_cons_of_mem x hy)]

namespace Cbor.Item

theorem toList?_array {α : Type} {read : Item → Option α} {write : α → Item} {xs : List α}
    (h : ∀ x ∈ xs, read (write x) = some x) : toList? read (.array (xs.map write)) = some xs := by
  have hread := mapM_map_eq_some h
  simpa [toList?, read?, untagged?, isNull] using hread

theorem toFields?_record (fields : List (Nat × Item)) :
    (record fields).toFields? = some fields := by
  have hread : (fields.map fun f => (unsigned f.1, f.2)).mapM
      (fun e => do return (← e.1.toFieldNumber?, e.2)) = some fields :=
    mapM_map_eq_some fun _ _ => rfl
  simpa [record, toFields?, read?, untagged?, isNull] using hread

theorem fits_record {fields : List (Nat × Item)} (hcount : fields.length ≤ maxElements)
    (h : ∀ f ∈ fields, f.1 < 2 ^ 64 ∧ f.2.Fits depth) : (record fields).Fits (depth + 1) := by
  refine .map (by simpa using hcount) ?_ ?_
  · intro e he
    obtain ⟨f, hf, rfl⟩ := mem_map.1 he
    exact .unsigned (h f hf).1
  · intro e he
    obtain ⟨f, hf, rfl⟩ := mem_map.1 he
    exact (h f hf).2

theorem fits_array {α : Type} {write : α → Item} {xs : List α} (hcount : xs.length ≤ maxElements)
    (h : ∀ x ∈ xs, (write x).Fits depth) : (array (xs.map write)).Fits (depth + 1) := by
  refine .array (by simpa using hcount) fun item hitem => ?_
  obtain ⟨x, hx, rfl⟩ := mem_map.1 hitem
  exact h x hx

end Cbor.Item

/-! ## Variables -/

namespace Snapshot

/-- Values with names of their own, within the limits of the format. -/
structure Storable {β : Type} (values : Assoc Bytes β) : Prop where
  count : values.length ≤ maxElements
  distinct : (values.map Prod.fst).Nodup
  names : ∀ v ∈ values, isUtf8 v.1 = true ∧ v.1.length < 2 ^ 64

theorem sorted_perm {β : Type} (values : Assoc Bytes β) : (sorted values).Perm values :=
  mergeSort_perm _ _

@[simp]
theorem sorted_nil {β : Type} : sorted ([] : Assoc Bytes β) = [] := mergeSort_nil

section

variable {β : Type} {read : β → Item → Option β} {write : β → Item}

/-- Values with names of their own are read in the order in which they are written. -/
theorem addNamed?_map (h : ∀ before v, read before (write v) = some v)
    (values known : Assoc Bytes β) (hnames : ((known ++ values).map Prod.fst).Nodup) (name : Bytes)
    (before : β) :
    addNamed? read name before (values.map fun v => (.text v.1, write v.2)) known
      = some (known ++ values) := by
  -- The names read so far grow by one that is not among them, so it is put behind them.
  induction values generalizing known name before with
  | nil => simp [addNamed?]
  | cons v values ih =>
    have hnew : v.1 ∉ known.map Prod.fst := by
      intro hmem
      rw [map_append, nodup_append] at hnames
      exact hnames.2.2 v.1 hmem v.1 (by simp) rfl
    have hput := Assoc.put_of_find?_eq_none (Assoc.find?_eq_none_iff.2 hnew) v.2
    have hrest := ih (known ++ [v]) (by simpa using hnames) v.1 v.2
    simpa [addNamed?, toTextOr?, read?, untagged?, isNull, h, hput]
      using hrest

theorem toNamed?_namedItem (h : ∀ before v, read before (write v) = some v)
    {values : Assoc Bytes β} (hvalues : Storable values) (first : β) :
    toNamed? first read (namedItem write values) = some (sorted values) := by
  have hnames : (([] ++ sorted values).map Prod.fst).Nodup :=
    ((sorted_perm values).map Prod.fst).nodup_iff.2 hvalues.distinct
  have hread := addNamed?_map h (sorted values) [] hnames [] first
  simpa [toNamed?, read?, namedItem, untagged?, isNull, sorted] using hread

theorem fits_namedItem {values : Assoc Bytes β} (hvalues : Storable values)
    (h : ∀ v ∈ values, (write v.2).Fits depth) : (namedItem write values).Fits (depth + 1) := by
  have hperm := sorted_perm values
  refine .map ?_ ?_ ?_
  · rw [length_map]
    exact hperm.length_eq ▸ hvalues.count
  · intro e he
    obtain ⟨v, hv, rfl⟩ := mem_map.1 he
    obtain ⟨hutf8, hlen⟩ := hvalues.names v (hperm.mem_iff.1 hv)
    exact .text hlen hutf8
  · intro e he
    obtain ⟨v, hv, rfl⟩ := mem_map.1 he
    exact h v (hperm.mem_iff.1 hv)

end

theorem toFloatOr?_realItem (before x : Float) : toFloatOr? before (realItem x) = some x := by
  simp [toFloatOr?, read?, realItem, untagged?, isNull]

theorem fits_realItem (depth : Nat) (x : Float) : (realItem x).Fits depth :=
  .float (oneNaN_toBits x)

theorem toElements?_elementsItem (elements : Option (List Float)) :
    toElements? (elementsItem elements) = some elements := by
  cases elements with
  | none => rfl
  | some xs =>
    have hread : (xs.map realItem).mapM toFloat? = some xs :=
      mapM_map_eq_some fun x _ => toFloatOr?_realItem 0 x
    simpa [toElements?, read?, elementsItem, untagged?, isNull] using hread

theorem fits_elementsItem {elements : Option (List Float)}
    (h : ∀ xs, elements = some xs → xs.length ≤ maxElements) (depth : Nat) :
    (elementsItem elements).Fits (depth + 1) := by
  cases elements with
  | none => exact .simple (by decide)
  | some xs => exact fits_array (h xs rfl) fun x _ => fits_realItem depth x

end Snapshot

/-! ## Equations -/

namespace SavedEquation

variable {e : SavedEquation}

/-- The fingerprint has its thirty-two bytes, and the source is UTF-8. -/
structure Storable (e : SavedEquation) : Prop where
  fingerprint : e.fingerprint.length = 32
  source : isUtf8 e.source = true ∧ e.source.length < 2 ^ 64

theorem ofItem?_toItem (h : e.Storable) : ofItem? e.toItem = some e := by
  have hfill : e.fingerprint.take 32 ++ replicate (32 - e.fingerprint.length) 0
      = e.fingerprint := by
    rw [h.fingerprint, take_of_length_le (Nat.le_of_eq h.fingerprint)]
    simp
  have hfingerprint : readField e.fields 1 noFingerprint (toFixedBytes? 32)
      = some e.fingerprint := by
    rw [← hfill]
    rfl
  have hsource : readField e.fields 2 [] toText? = some e.source := rfl
  have hcompat : readField e.fields 3 false toBool? = some e.compat := by
    unfold fields
    cases e.compat <;> rfl
  rw [ofItem?, toItem, toFields?_record]
  simp [hfingerprint, hsource, hcompat]

theorem fits_toItem (h : e.Storable) (depth : Nat) : e.toItem.Fits (depth + 1) := by
  refine fits_record ?_ fun f hf => ?_
  · unfold fields
    split <;> simp [maxElements]
  · have hlen := h.fingerprint
    unfold fields at hf
    simp only [mem_append, mem_cons, not_mem_nil, or_false] at hf
    rcases hf with (rfl | rfl) | hf
    · exact ⟨by simp, .bytes (by omega)⟩
    · exact ⟨by simp, .text h.source.2 h.source.1⟩
    · split at hf
      · obtain rfl := mem_singleton.1 hf
        exact ⟨by simp, .simple (by decide)⟩
      · cases hf

end SavedEquation

/-! ## Snapshots -/

namespace Snapshot

theorem toByte?_unsigned (b : UInt8) : toByte? (.unsigned b.toNat) = some b := by
  have hlt := b.toNat_lt
  simp [toByte?, read?, untagged?, isNull, toInt?]
  omega

theorem toBytes?_bytes (b : Bytes) : toBytes? (.bytes b) = some b := by
  simp [toBytes?, read?, untagged?, isNull]

theorem toList?_listItem {α : Type} {read : Item → Option α} {write : α → Item} {xs : List α}
    (h : ∀ x ∈ xs, read (write x) = some x) :
    toList? read (listItem (xs.map write)) = some xs := by
  cases xs with
  | nil => rfl
  | cons x xs => exact toList?_array h

section

variable {α : Type} {key : Nat} {values : List α} {item : Item}

theorem lookup_field_ne {key' : Nat} (h : key' ≠ key) (values : List α) (item : Item) :
    (field key values item).lookup key' = none := by
  unfold field
  split
  · rfl
  · rw [lookup_cons, beq_false_of_ne h]
    rfl

theorem mem_field {f : Nat × Item} (h : f ∈ field key values item) : f = (key, item) := by
  unfold field at h
  split at h
  · cases h
  · exact mem_singleton.1 h

/-- A field is read as its elements, whether it was written or left out. -/
theorem readField_field {front back : List (Nat × Item)} {read : Item → Option (List α)}
    {result : List α} (hfront : front.lookup key = none) (hback : back.lookup key = none)
    (hempty : values = [] → result = []) (hread : read item = some result) :
    readField (front ++ field key values item ++ back) key [] read = some result := by
  cases values with
  | nil => simp [readField, field, lookup_append, hfront, hback, hempty]
  | cons v values => simp [readField, field, lookup_append, hfront, hread, lookup]

end

/-- Texts are UTF-8, fingerprints have their thirty-two bytes, and lists, variables and strings are
    within the limits of the format. -/
structure WithinLimits (s : Snapshot) : Prop where
  programCount : s.programs.length ≤ maxElements
  programs : ∀ p ∈ s.programs, p.length < 2 ^ 64
  equationCount : s.equations.length ≤ maxElements
  equations : ∀ e ∈ s.equations, e.Storable
  reals : Storable s.reals
  matrices : Storable s.matrices
  elements : ∀ m ∈ s.matrices, ∀ xs, m.2 = some xs → xs.length ≤ maxElements

section

variable {s : Snapshot}

/-- The item of a snapshot is read as the snapshot, with variables in another order. -/
theorem ofItem?_toItem (h : s.WithinLimits) :
    ofItem? s.toItem = some { s with reals := sorted s.reals, matrices := sorted s.matrices } := by
  have hversion : readField s.fields 1 0 toByte? = some s.version := toByte?_unsigned s.version
  have hprograms : readField s.fields 2 [] (toList? toBytes?) = some s.programs :=
    toList?_listItem fun b _ => toBytes?_bytes b
  have hequations : readField s.fields 3 [] (toList? SavedEquation.ofItem?)
      = some s.equations := by
    have hread : toList? SavedEquation.ofItem? (.array (s.equations.map SavedEquation.toItem))
        = some s.equations :=
      toList?_array fun e he => SavedEquation.ofItem?_toItem (h.equations e he)
    rw [fields, append_assoc _ (field 4 _ _)]
    refine readField_field rfl ?_ id hread
    rw [lookup_append, lookup_field_ne (by decide), lookup_field_ne (by decide)]
    rfl
  have hreals : readField s.fields 4 [] (toNamed? 0 toFloatOr?)
      = some (sorted s.reals) := by
    have hread := toNamed?_namedItem toFloatOr?_realItem h.reals 0
    refine readField_field ?_ (lookup_field_ne (by decide) _ _) (fun h0 => by rw [h0, sorted_nil])
      hread
    rw [lookup_append, lookup_field_ne (by decide)]
    rfl
  have hmatrices : readField s.fields 5 [] (toNamed? none fun _ => toElements?)
      = some (sorted s.matrices) := by
    have hread := toNamed?_namedItem (fun _ => toElements?_elementsItem) h.matrices none
    rw [fields, ← append_nil (_ ++ field 5 _ _)]
    refine readField_field ?_ rfl (fun h0 => by rw [h0, sorted_nil]) hread
    rw [lookup_append, lookup_append, lookup_field_ne (by decide), lookup_field_ne (by decide)]
    rfl
  -- A field that was left out is read as empty, which is what its values are then.
  rw [ofItem?, toItem, toFields?_record]
  simp [hversion, hprograms, hequations, hreals, hmatrices]

theorem fits_listItem {α : Type} {write : α → Item} {xs : List α} (hcount : xs.length ≤ maxElements)
    (h : ∀ x ∈ xs, (write x).Fits depth) : (listItem (xs.map write)).Fits (depth + 1) := by
  cases xs with
  | nil => exact .simple (by decide)
  | cons x xs => exact fits_array hcount h

theorem fits_toItem (h : s.WithinLimits) (depth : Nat) : s.toItem.Fits (depth + 3) := by
  have hversion := s.version.toNat_lt
  refine fits_record ?_ fun f hf => ?_
  · unfold fields field
    split <;> split <;> split <;> simp [maxElements]
  · unfold fields at hf
    simp only [mem_append, mem_cons, not_mem_nil, or_false] at hf
    rcases hf with (((rfl | rfl) | hf) | hf) | hf
    · exact ⟨by simp, .unsigned (by omega)⟩
    · exact ⟨by simp, fits_listItem h.programCount fun b hb => .bytes (h.programs b hb)⟩
    · obtain rfl := mem_field hf
      exact ⟨by simp, fits_array h.equationCount fun e he =>
        SavedEquation.fits_toItem (h.equations e he) depth⟩
    · obtain rfl := mem_field hf
      exact ⟨by simp, fits_namedItem h.reals fun v _ => fits_realItem _ v.2⟩
    · obtain rfl := mem_field hf
      exact ⟨by simp, fits_namedItem h.matrices fun m hm =>
        fits_elementsItem (h.elements m hm) depth⟩

/-- What is asked of a codec for snapshots. -/
structure Codec.Canonical (codec : Codec) : Prop where
  /-- A snapshot is written in the canonical form of its item: integers, lengths and numbers take
      the fewest bytes that keep their value, and names are in order. -/
  canonical : ∀ s : Snapshot, s.WithinLimits → codec.marshal s = s.toItem.encode
  /-- Bytes in the canonical form of an item are read as the fields of the item. -/
  matching : ∀ item : Item, item.Fits maxDepth → codec.unmarshal? item.encode = ofItem? item

theorem canonicalCodec_canonical : canonicalCodec.Canonical where
  canonical _ _ := rfl
  matching item h := by
    change (decode? item.encode).bind ofItem? = ofItem? item
    rw [decode?_encode h, Option.bind_some]

/-- A snapshot is read back from its bytes: the same programs, equations and variables, where the
    order of variables does not count. Numbers are the same bit for bit, but all patterns that stand
    for no number become one. A snapshot of another version is refused. -/
theorem Codec.Canonical.read_marshal {codec : Codec} (hcodec : codec.Canonical)
    (h : s.WithinLimits) :
    (s.version = snapshotVersion → ∃ t, codec.read (codec.marshal s) = .ok t ∧
      t.version = snapshotVersion ∧ t.programs = s.programs ∧ t.equations = s.equations ∧
      t.reals.Perm s.reals ∧ t.matrices.Perm s.matrices ∧
      (∀ name bits, (name, .ofBits bits) ∈ s.reals →
        ∃ x, (name, x) ∈ t.reals ∧ x.toBits = oneNaN bits) ∧
      ∀ name (patterns : List UInt64), (name, some (patterns.map .ofBits)) ∈ s.matrices →
        ∃ xs, (name, some xs) ∈ t.matrices ∧ xs.map Float.toBits = patterns.map oneNaN) ∧
    (s.version ≠ snapshotVersion →
      codec.read (codec.marshal s) = .error (.unsupportedVersion s.version.toNat)) := by
  have hread : codec.unmarshal? (codec.marshal s)
      = some { s with reals := sorted s.reals, matrices := sorted s.matrices } := by
    rw [hcodec.canonical s h, hcodec.matching _ (fits_toItem h 29), ofItem?_toItem h]
  refine ⟨fun hversion => ?_, fun hversion => ?_⟩
  · refine ⟨{ s with reals := sorted s.reals, matrices := sorted s.matrices }, ?_, hversion, rfl,
      rfl, sorted_perm s.reals, sorted_perm s.matrices, fun name bits hreal => ?_,
      fun name patterns hmatrix => ?_⟩
    · rw [Codec.read, hread]
      simp [checkVersion, hversion]
    · exact ⟨_, (sorted_perm s.reals).mem_iff.2 hreal, toBits_ofBits bits⟩
    · refine ⟨_, (sorted_perm s.matrices).mem_iff.2 hmatrix, ?_⟩
      rw [map_map]
      exact map_congr_left fun bits _ => toBits_ofBits bits
  · rw [Codec.read, hread]
    simp [checkVersion, hversion]

end

/-- Names out of order, a negative zero, a subnormal number of sixteen bits and no number at all,
    a third in a matrix, and a matrix without elements. -/
def specimen (version : UInt8) : Snapshot where
  version
  programs := [[0x10, 0x85, 0x01, 0xff], []]
  equations := [⟨replicate 32 0xab, [0x78, 0x2b, 0xc3, 0xa9], true⟩,
    ⟨replicate 32 0, [], false⟩]
  reals := [([0x61, 0x62], .ofBits 0x3e70000000000000), ([0x7a], .ofBits 0x8000000000000000),
    ([0x61], .ofBits 0x7ff8000000000000)]
  matrices := [([0x4d], none), ([0x41], some [.ofBits 0x3fd5555555555555, .ofBits 0])]

theorem specimen_withinLimits (version : UInt8) : (specimen version).WithinLimits where
  programCount := by simp [specimen, maxElements]
  programs := by simp [specimen]
  equationCount := by simp [specimen, maxElements]
  equations := by
    intro e he
    simp only [specimen, mem_cons, not_mem_nil, or_false] at he
    rcases he with rfl | rfl
    · exact ⟨rfl, by decide⟩
    · exact ⟨rfl, by decide⟩
  reals := ⟨by simp [specimen, maxElements], by simp [specimen], by simp only [specimen]; decide⟩
  matrices := ⟨by simp [specimen, maxElements], by simp [specimen], by simp only [specimen]; decide⟩
  elements := by simp [specimen, maxElements]

theorem read_marshal_specimen :
    (∃ t, decode (specimen 1).encode = .ok t ∧ t.version = 1 ∧
      t.programs = (specimen 1).programs ∧ t.equations = (specimen 1).equations ∧
      t.reals.Perm (specimen 1).reals ∧ t.matrices.Perm (specimen 1).matrices) ∧
    decode (specimen 2).encode = .error (.unsupportedVersion 2) := by
  obtain ⟨t, hread, hversion, hprograms, hequations, hreals, hmatrices, -⟩ :=
    (canonicalCodec_canonical.read_marshal (specimen_withinLimits 1)).1 rfl
  exact ⟨⟨t, hread, hversion, hprograms, hequations, hreals, hmatrices⟩,
    (canonicalCodec_canonical.read_marshal (specimen_withinLimits 2)).2 (by decide)⟩

end Snapshot

end Keystroke
