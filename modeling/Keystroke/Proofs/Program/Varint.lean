import Keystroke.Program.Varint
import Mathlib

set_option autoImplicit false

/-! # Reading back integers of varying length

Reading takes groups without the high bit up to the first byte that has it
(`decodeFrom_eq_some_iff`), so it looks only at the bytes it consumes: what stands behind them may
be added, dropped or replaced (`decode_append`, `decode_take`). An integer that was written reads
back (`decode_encode`), and no fewer bytes are read as it. The number that is read is the value of
its groups unless these have more than 32 bits (`decode_exact`). -/

namespace Keystroke.Varint

open List

variable {count k : Nat} {n v : UInt32} {bytes groups : Bytes} {r : UInt32 × Nat}

/-! ## Single bytes -/

theorem highBit_iff (b : UInt8) : (b &&& 0x80 != 0) = decide (128 ≤ b.toNat) := by
  have h : ∀ v : BitVec 8,
      (UInt8.ofBitVec v &&& 0x80 != 0) = decide (128 ≤ (UInt8.ofBitVec v).toNat) := by decide
  exact h b.toBitVec

theorem lowBits_toNat (b : UInt8) : (b &&& 0x7F).toNat = b.toNat % 128 := by
  exact Nat.and_two_pow_sub_one_eq_mod b.toNat 7

theorem shift_or_eq (a : Nat) (b : UInt8) :
    (UInt32.ofNat a <<< 7 ||| (b &&& 0x7F).toUInt32) = UInt32.ofNat (a * 128 + b.toNat % 128) := by
  apply UInt32.toNat_inj.mp
  simp only [UInt32.toNat_or, UInt32.toNat_shiftLeft, UInt32.toNat_ofNat', UInt8.toNat_toUInt32,
    lowBits_toNat, UInt32.reduceToNat, Nat.reduceMod]
  have hgroup : b.toNat % 128 < 2 ^ 7 := by omega
  have hshift : (a % 2 ^ 32) <<< 7 % 2 ^ 32 = (a % 2 ^ 25) <<< 7 := by
    omega
  rw [hshift, ← Nat.shiftLeft_add_eq_or_of_lt hgroup, Nat.shiftLeft_eq]
  omega

/-! ## Groups -/

/-- The number that groups of seven bits stand for, the most significant first. -/
def groupsValue (groups : Bytes) : Nat := Nat.ofDigits 128 (groups.map (·.toNat % 128)).reverse

theorem groupsValue_cons (b : UInt8) (groups : Bytes) :
    groupsValue (b :: groups) = b.toNat % 128 * 128 ^ groups.length + groupsValue groups := by
  simp [groupsValue, Nat.ofDigits_append]
  ring

theorem groupsValue_concat (groups : Bytes) (b : UInt8) :
    groupsValue (groups ++ [b]) = groupsValue groups * 128 + b.toNat % 128 := by
  simp [groupsValue, Nat.ofDigits_cons]
  ring

theorem group_lt (groups : Bytes) : ∀ d ∈ (groups.map (·.toNat % 128)).reverse, d < 128 := by
  simp only [mem_reverse, mem_map]
  omega

theorem groupsValue_lt (groups : Bytes) : groupsValue groups < 128 ^ groups.length := by
  simpa [groupsValue] using Nat.ofDigits_lt_base_pow_length (by decide) (group_lt groups)

/-- The bytes of one integer: only the last has its high bit set. -/
def Whole (groups : Bytes) : Prop :=
  ∃ front last, groups = front ++ [last] ∧ (∀ b ∈ front, b.toNat < 128) ∧ 128 ≤ last.toNat

theorem Whole.eq_of_value {other : Bytes} (h : Whole groups) (ho : Whole other)
    (hlength : groups.length = other.length) (hvalue : groupsValue groups = groupsValue other) :
    groups = other := by
  obtain ⟨front, last, rfl, hfront, hlast⟩ := h
  obtain ⟨front', last', rfl, hfront', hlast'⟩ := ho
  have hdigits := reverse_injective (Nat.ofDigits_inj_of_len_eq (by decide)
    (by simpa using hlength) (group_lt _) (group_lt _) hvalue)
  have hback {l : Bytes} (hl : ∀ b ∈ l, b.toNat < 128) :
      (l.map (·.toNat % 128)).map Nat.toUInt8 = l := by
    rw [map_map]
    refine (map_congr_left fun b hb => ?_).trans (map_id l)
    simp [Nat.mod_eq_of_lt (hl b hb)]
  simp only [map_append, map_cons, map_nil] at hdigits
  obtain ⟨hfronts, hlasts⟩ := append_inj' hdigits rfl
  have := last.toNat_lt
  have := last'.toNat_lt
  have hsame : last = last' := UInt8.toNat_inj.1 (by simp at hlasts; omega)
  rw [← hback hfront, ← hback hfront', hfronts, hsame]

/-! ## Reading -/

/-- Reading takes the bytes of one integer, and adds their groups to the number so far. -/
theorem decodeFrom_eq_some_iff (a : Nat) :
    decodeFrom count (.ofNat a) bytes = some (v, k) ↔
      ∃ groups rest, bytes = groups ++ rest ∧ Whole groups ∧ groups.length = k ∧ k ≤ count ∧
        v = .ofNat (a * 128 ^ k + groupsValue groups) := by
  induction count generalizing a bytes v k with
  | zero =>
    simp only [decodeFrom, reduceCtorEq, false_iff]
    rintro ⟨_, rest, -, ⟨front, last, rfl, -⟩, rfl, hle, -⟩
    simp at hle
  | succ count ih =>
    cases bytes with
    | nil =>
      simp only [decodeFrom, reduceCtorEq, false_iff]
      rintro ⟨_, rest, h, ⟨front, last, rfl, -⟩, -⟩
      simp at h
    | cons b bytes =>
      simp only [decodeFrom, shift_or_eq, highBit_iff, decide_eq_true_eq]
      split
      · next hb =>
        constructor
        · rintro h
          obtain ⟨rfl, rfl⟩ := Prod.mk.inj (Option.some.inj h)
          exact ⟨[b], bytes, rfl, ⟨[], b, rfl, by simp, hb⟩, rfl, by omega, by simp [groupsValue]⟩
        · rintro ⟨_, rest, hbytes, ⟨front, last, rfl, hfront, -⟩, rfl, -, rfl⟩
          cases front with
          | nil =>
            obtain ⟨rfl, -⟩ := cons.inj hbytes
            simp [groupsValue]
          | cons c front =>
            obtain ⟨rfl, -⟩ := cons.inj hbytes
            have := hfront b (by simp)
            omega
      · next hb =>
        have hvalue (groups : Bytes) :
            (a * 128 + b.toNat % 128) * 128 ^ groups.length + groupsValue groups
              = a * 128 ^ (groups.length + 1) + groupsValue (b :: groups) := by
          rw [groupsValue_cons]
          ring
        simp only [Option.map_eq_some_iff, Prod.exists, ih]
        constructor
        · rintro ⟨v, k, ⟨groups, rest, rfl, ⟨front, last, rfl, hfront, hlast⟩, rfl, hle, rfl⟩, h⟩
          obtain ⟨rfl, rfl⟩ := Prod.mk.inj h
          exact ⟨b :: (front ++ [last]), rest, rfl, ⟨b :: front, last, rfl,
            by simpa using ⟨by omega, hfront⟩, hlast⟩, rfl, by omega, by rw [hvalue]⟩
        · rintro ⟨_, rest, hbytes, ⟨front, last, rfl, hfront, hlast⟩, rfl, hle, rfl⟩
          cases front with
          | nil =>
            obtain ⟨rfl, -⟩ := cons.inj hbytes
            exact absurd hlast hb
          | cons c front =>
            obtain ⟨rfl, rfl⟩ := cons.inj hbytes
            refine ⟨_, _, ⟨front ++ [last], rest, rfl, ⟨front, last, rfl, ?_, hlast⟩, rfl,
              by simpa using hle, rfl⟩, ?_⟩
            · exact fun d hd => hfront d (by simp [hd])
            · rw [hvalue]
              rfl

theorem decode_eq_some_iff :
    decode bytes = some (v, k) ↔ ∃ groups rest, bytes = groups ++ rest ∧ Whole groups ∧
      groups.length = k ∧ k ≤ 5 ∧ v = .ofNat (groupsValue groups) := by
  have h := @decodeFrom_eq_some_iff 5 k v bytes 0
  simpa [decode] using h

theorem decode_append (rest : Bytes) (h : decode bytes = some r) :
    decode (bytes ++ rest) = some r := by
  obtain ⟨groups, behind, rfl, hgroups⟩ := decode_eq_some_iff.1 h
  exact decode_eq_some_iff.2 ⟨groups, behind ++ rest, by simp, hgroups⟩

theorem decode_take {used k : Nat} (h : decode bytes = some (n, used)) (hk : used ≤ k) :
    decode (bytes.take k) = some (n, used) := by
  obtain ⟨groups, rest, rfl, hwhole, rfl, hgroups⟩ := decode_eq_some_iff.1 h
  refine decode_eq_some_iff.2 ⟨groups, rest.take (k - groups.length), ?_, hwhole, rfl, hgroups⟩
  rw [take_append, take_of_length_le hk]

/-! ## Written and read -/

theorem length_leadingGroups_le {m : Nat} (count : Nat) (h : m < 128 ^ k) :
    (leadingGroups count m).length ≤ k := by
  induction count generalizing m k with
  | zero => simp [leadingGroups]
  | succ count ih =>
    rw [leadingGroups]
    split
    · simp
    · cases k with
      | zero => omega
      | succ k =>
        have := ih (m := m / 128) (k := k) (by rw [pow_succ] at h; omega)
        simpa using this

theorem leadingGroups_spec (count m : Nat) (h : m < 128 ^ count) :
    (∀ b ∈ leadingGroups count m, b.toNat < 128) ∧ groupsValue (leadingGroups count m) = m := by
  induction count generalizing m with
  | zero =>
    obtain rfl : m = 0 := by simpa using h
    simp [leadingGroups, groupsValue]
  | succ count ih =>
    rw [leadingGroups]
    split
    · next hm => simp [hm, groupsValue]
    · obtain ⟨hlow, hvalue⟩ := ih (m / 128) (by rw [pow_succ] at h; omega)
      have hbyte : ((m % 128).toUInt8).toNat = m % 128 := by
        rw [UInt8.toNat_ofNat']
        omega
      refine ⟨?_, by rw [groupsValue_concat, hvalue, hbyte]; omega⟩
      simp only [mem_append, mem_singleton]
      rintro b (hb | rfl)
      · exact hlow b hb
      · omega

theorem encode_spec (n : UInt32) : Whole (encode n) ∧ groupsValue (encode n) = n.toNat := by
  have hn := n.toNat_lt
  obtain ⟨hlow, hvalue⟩ := leadingGroups_spec 4 (n.toNat / 128) (by omega)
  have hlast : ((n.toNat % 128 + 128).toUInt8).toNat = n.toNat % 128 + 128 := by
    rw [UInt8.toNat_ofNat']
    omega
  refine ⟨⟨_, _, rfl, hlow, by omega⟩, ?_⟩
  rw [encode, groupsValue_concat, hvalue, hlast]
  omega

/-- Writing a number takes no more bytes than any groups that stand for it. -/
theorem length_encode_le (hk : 0 < k) (h : n.toNat < 128 ^ k) : (encode n).length ≤ k := by
  obtain ⟨k, rfl⟩ := Nat.exists_eq_succ_of_ne_zero hk.ne'
  have := length_leadingGroups_le (k := k) 4 (m := n.toNat / 128) (by rw [pow_succ] at h; omega)
  simpa [encode] using this

/-- An integer that was written reads back, whatever stands behind it. -/
theorem decode_encode (n : UInt32) (rest : Bytes) :
    decode (encode n ++ rest) = some (n, (encode n).length) := by
  have hn := n.toNat_lt
  obtain ⟨hwhole, hvalue⟩ := encode_spec n
  exact decode_eq_some_iff.2 ⟨encode n, rest, rfl, hwhole, rfl,
    length_encode_le (by decide) (by omega), by rw [hvalue, UInt32.ofNat_toNat]⟩

/-- A number that is written reads back. Reading gives the value of the groups that it takes, and
    writing the fewest groups with a value. Of five groups whose first has more than four bits, what
    32 bits do not hold is lost. -/
theorem decode_exact (n : UInt32) :
    decode (encode n) = some (n, (encode n).length) ∧
    ∀ (bytes : Bytes) (offset k : Nat), decode (bytes.drop offset) = some (n, k) →
      let groups := (bytes.drop offset).take k
      groups.length = k ∧ n.toNat = groupsValue groups % 2 ^ 32 ∧
        (n.toNat ≠ groupsValue groups ↔ k = 5 ∧ 16 ≤ (groups.headD 0).toNat) ∧
        (encode n).length ≤ k ∧
        (n.toNat = groupsValue groups → k = (encode n).length → groups = encode n) := by
  refine ⟨by simpa using decode_encode n [], fun bytes offset k h => ?_⟩
  obtain ⟨groups, rest, hbytes, hwhole, rfl, hfive, rfl⟩ := decode_eq_some_iff.1 h
  rw [hbytes, take_left]
  have hvalue : (UInt32.ofNat (groupsValue groups)).toNat = groupsValue groups % 2 ^ 32 :=
    UInt32.toNat_ofNat'
  have hlt := groupsValue_lt groups
  refine ⟨rfl, hvalue, ?_, ?_, fun hexact hlength => ?_⟩
  · rw [hvalue]
    obtain ⟨front, last, rfl, hfront, -⟩ := hwhole
    cases front with
    | nil =>
      simp only [nil_append, length_singleton] at hlt ⊢
      omega
    | cons b front =>
      -- four groups fit, so all depends on the first of five
      have hrest := groupsValue_lt (front ++ [last])
      have hb := hfront b (by simp)
      simp only [cons_append, headD_cons, groupsValue_cons, length_cons] at hlt hfive ⊢
      generalize (front ++ [last]).length = m at hlt hfive hrest ⊢
      have hm : m ≤ 4 := by omega
      interval_cases m <;> omega
  · have hpos : 0 < groups.length := by
      obtain ⟨front, last, rfl, -⟩ := hwhole
      simp
    refine length_encode_le hpos ?_
    omega
  · obtain ⟨hencoded, hsame⟩ := encode_spec (.ofNat (groupsValue groups))
    exact hwhole.eq_of_value hencoded hlength (by rw [hsame, hexact])

/-- The first group of the five has a bit too many, and the number wraps around to zero. -/
theorem decode_exact_wrapped :
    decode ([0xFF, 0x10, 0, 0, 0, 0x80].drop 1) = some (0, 5) ∧
      (0 : UInt32).toNat ≠ groupsValue [0x10, 0, 0, 0, 0x80] ∧ (encode 0).length ≤ 5 := by
  have h := (decode_exact 0).2 [0xFF, 0x10, 0, 0, 0, 0x80] 1 5 (by decide)
  exact ⟨by decide, h.2.2.1.2 (by decide), h.2.2.2.1⟩

end Keystroke.Varint
