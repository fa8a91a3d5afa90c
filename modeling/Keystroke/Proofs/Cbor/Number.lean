import Keystroke.Cbor.Item
import Keystroke.Decimal.Binary64
import Mathlib

set_option autoImplicit false

/-! # Numbers in fewer bits

A number that is written in a narrower format is read back bit for bit: zeros and infinities with
their signs, normal numbers, and those that are subnormal in the narrower format
(`Width.widen_narrow?`). All patterns that stand for no number become one of them. -/

namespace Keystroke.Cbor

/-- The pattern of no number that all others become. -/
def quietNaN : UInt64 := 0x7FF8000000000000

/-- The pattern as it is read back: patterns of no number are made one, all others are kept. -/
def oneNaN (bits : UInt64) : UInt64 :=
  if Binary64.infinityBits < bits.toNat % 2 ^ 63 then quietNaN else bits

namespace Width

/-- The format has an exponent and a fraction, and its fraction is no longer than that of
    binary64. -/
structure Narrow (w : Width) : Prop where
  exponent : 0 < w.exponentBits
  fraction : 0 < w.fractionBits
  fraction_le : w.fractionBits ≤ 52

theorem narrow_half : half.Narrow := ⟨by decide, by decide, by decide⟩

theorem narrow_single : single.Narrow := ⟨by decide, by decide, by decide⟩

/-- The pattern with the given sign, exponent and fraction. -/
def pattern (w : Width) (sign biased fraction : Nat) : Nat :=
  sign * 2 ^ (w.exponentBits + w.fractionBits) + biased * 2 ^ w.fractionBits + fraction

section

variable {w : Width} {sign biased fraction : Nat}

theorem pattern_eq (w : Width) (sign biased fraction : Nat) :
    w.pattern sign biased fraction
      = fraction + 2 ^ w.fractionBits * (biased + 2 ^ w.exponentBits * sign) := by
  rw [pattern, Nat.pow_add]
  ring

section

variable (hs : sign < 2) (hb : biased < 2 ^ w.exponentBits) (hf : fraction < 2 ^ w.fractionBits)

include hs hb hf

theorem pattern_lt :
    w.pattern sign biased fraction < 2 ^ (1 + w.exponentBits + w.fractionBits) := by
  have hsign : sign * 2 ^ (w.exponentBits + w.fractionBits)
      ≤ 1 * 2 ^ (w.exponentBits + w.fractionBits) := Nat.mul_le_mul_right _ (by omega)
  have hbiased : (biased + 1) * 2 ^ w.fractionBits
      ≤ 2 ^ w.exponentBits * 2 ^ w.fractionBits := Nat.mul_le_mul_right _ hb
  rw [← Nat.pow_add, Nat.add_mul, Nat.one_mul] at hbiased
  rw [pattern, Nat.add_assoc 1, Nat.pow_add 2 1]
  omega

theorem parts_pattern :
    w.pattern sign biased fraction / 2 ^ (w.exponentBits + w.fractionBits) % 2 = sign ∧
      w.pattern sign biased fraction / 2 ^ w.fractionBits % 2 ^ w.exponentBits = biased ∧
      w.pattern sign biased fraction % 2 ^ w.fractionBits = fraction := by
  have hupper : w.pattern sign biased fraction / 2 ^ w.fractionBits
      = biased + 2 ^ w.exponentBits * sign := by
    rw [pattern_eq, Nat.add_mul_div_left _ _ (Nat.two_pow_pos _), Nat.div_eq_of_lt hf, Nat.zero_add]
  refine ⟨?_, ?_, ?_⟩
  · rw [Nat.add_comm w.exponentBits, Nat.pow_add, ← Nat.div_div_eq_div_mul, hupper,
      Nat.add_mul_div_left _ _ (Nat.two_pow_pos _), Nat.div_eq_of_lt hb, Nat.zero_add,
      Nat.mod_eq_of_lt hs]
  · rw [hupper, Nat.add_mul_mod_self_left, Nat.mod_eq_of_lt hb]
  · rw [pattern_eq, Nat.add_mul_mod_self_left, Nat.mod_eq_of_lt hf]

end

/-- A pattern of the narrower format fits into its bits and is read as the given one of binary64. -/
structure Reads (w : Width) (narrowed number : Nat) : Prop where
  widen : w.widen narrowed = number.toUInt64
  lt : narrowed < 2 ^ (1 + w.exponentBits + w.fractionBits)

/-- Infinities, and with a fraction no number. -/
theorem reads_top (hs : sign < 2) (hf : fraction < 2 ^ w.fractionBits) :
    w.Reads (w.pattern sign (2 ^ w.exponentBits - 1) fraction)
      (sign * 2 ^ 63 + 2047 * 2 ^ 52 + fraction * 2 ^ (52 - w.fractionBits)) := by
  have htop : 2 ^ w.exponentBits - 1 < 2 ^ w.exponentBits :=
    Nat.sub_lt (Nat.two_pow_pos _) Nat.one_pos
  obtain ⟨hsign, hbiased, hfraction⟩ := parts_pattern hs htop hf
  refine ⟨?_, pattern_lt hs htop hf⟩
  simp only [widen, Nat.pow_eq, hsign, hbiased, hfraction, if_true]

end

/-! ## Writing in fewer bits -/

section

variable {w : Width} {bits : UInt64} {narrowed : Nat}

theorem toNat_parts (bits : UInt64) :
    bits.toNat / 2 ^ 63 < 2 ∧
      bits.toNat = bits.toNat / 2 ^ 63 * 2 ^ 63 + bits.toNat / 2 ^ 52 % 2048 * 2 ^ 52
        + bits.toNat % 2 ^ 52 := by
  have hlt := bits.toNat_lt
  omega

/-- A number that is subnormal in the narrower format: its significand is a multiple of the unit
    there, and the place of its leading bit says of which. -/
theorem subnormal_parts (hw : w.Narrow) {fraction k : Nat} (hk : 0 < k) (hf : fraction < 2 ^ 52)
    (h : (2 ^ 52 + fraction) % 2 ^ (52 - w.fractionBits + k) = 0) :
    ∃ q, (2 ^ 52 + fraction) / 2 ^ (52 - w.fractionBits + k) = q ∧ 0 < q ∧
      q < 2 ^ w.fractionBits ∧ w.fractionBits - q.log2 = k ∧
      (q * 2 ^ k - 2 ^ w.fractionBits) * 2 ^ (52 - w.fractionBits) = fraction := by
  have hle := hw.fraction_le
  obtain ⟨q, hq⟩ := Nat.dvd_of_mod_eq_zero h
  have hpos : 0 < q := Nat.pos_of_ne_zero fun h0 => by
    rw [h0, Nat.mul_zero] at hq
    omega
  have hkle : k ≤ w.fractionBits := by
    have hunit := Nat.le_mul_of_pos_right (2 ^ (52 - w.fractionBits + k)) hpos
    have hpow : 2 ^ (52 - w.fractionBits + k) < 2 ^ 53 := by omega
    have hexponent := (Nat.pow_lt_pow_iff_right (by decide)).1 hpow
    omega
  -- The significand has 53 bits, so the quotient has as many as there are above the unit.
  have hlow : 2 ^ (w.fractionBits - k) ≤ q := by
    refine Nat.le_of_mul_le_mul_left (c := 2 ^ (52 - w.fractionBits + k)) ?_ (Nat.two_pow_pos _)
    rw [← hq, ← Nat.pow_add, show 52 - w.fractionBits + k + (w.fractionBits - k) = 52 by omega]
    omega
  have hhigh : q < 2 ^ (w.fractionBits - k + 1) := by
    refine Nat.lt_of_mul_lt_mul_left (a := 2 ^ (52 - w.fractionBits + k)) ?_
    rw [← hq, ← Nat.pow_add, show 52 - w.fractionBits + k + (w.fractionBits - k + 1) = 53 by omega]
    omega
  have hlog : q.log2 = w.fractionBits - k := (Nat.log2_eq_iff (by omega)).2 ⟨hlow, hhigh⟩
  refine ⟨q, ?_, hpos, ?_, by omega, ?_⟩
  · rw [hq, Nat.mul_div_cancel_left _ (Nat.two_pow_pos _)]
  · exact Nat.lt_of_lt_of_le hhigh (Nat.pow_le_pow_right (by decide) (by omega))
  · have hscaled : q * 2 ^ k * 2 ^ (52 - w.fractionBits) = 2 ^ 52 + fraction := by
      rw [hq, Nat.mul_assoc, ← Nat.pow_add, Nat.mul_comm, Nat.add_comm k]
    rw [Nat.sub_mul, hscaled, ← Nat.pow_add,
      show w.fractionBits + (52 - w.fractionBits) = 52 by omega]
    omega

section

variable {sign biased fraction : Nat}

theorem reads_noNumber (hw : w.Narrow) :
    w.Reads (w.pattern 0 (2 ^ w.exponentBits - 1) (2 ^ (w.fractionBits - 1)))
      (2047 * 2 ^ 52 + 2 ^ 51) := by
  have hpos := hw.fraction
  have hle := hw.fraction_le
  have hread := reads_top (by decide : 0 < 2)
    (Nat.pow_lt_pow_right (by decide) (by omega) : 2 ^ (w.fractionBits - 1) < 2 ^ w.fractionBits)
  rwa [← Nat.pow_add, show w.fractionBits - 1 + (52 - w.fractionBits) = 51 by omega, Nat.zero_mul,
    Nat.zero_add] at hread

section

variable (hw : w.Narrow) (hs : sign < 2)

include hw hs

/-- Without an exponent there is no leading bit, but for the one of the fraction. -/
theorem widen_least (hf : fraction < 2 ^ w.fractionBits) :
    w.widen (w.pattern sign 0 fraction) = if fraction = 0 then (sign * 2 ^ 63).toUInt64 else
      (sign * 2 ^ 63 + (1024 - w.bias - (w.fractionBits - fraction.log2)) * 2 ^ 52
        + (fraction * 2 ^ (w.fractionBits - fraction.log2) - 2 ^ w.fractionBits)
          * 2 ^ (52 - w.fractionBits)).toUInt64 := by
  obtain ⟨hsign, hbiased, hfraction⟩ := parts_pattern hs (Nat.two_pow_pos w.exponentBits) hf
  have htop : 2 ^ 1 ≤ 2 ^ w.exponentBits := Nat.pow_le_pow_right (by decide) hw.exponent
  simp only [widen, Nat.pow_eq, hsign, hbiased, hfraction, Nat.lt_irrefl, if_false]
  rw [if_neg (by omega)]

theorem reads_zero : w.Reads (w.pattern sign 0 0) (sign * 2 ^ 63) :=
  ⟨widen_least hw hs (Nat.two_pow_pos _), pattern_lt hs (Nat.two_pow_pos _) (Nat.two_pow_pos _)⟩

/-- A number of which the format has the exponent, and no bit of the fraction is lost. -/
theorem reads_normal (hf : fraction < 2 ^ 52)
    (hlow : 1023 < biased + w.bias) (hhigh : biased + w.bias < 1023 + (2 ^ w.exponentBits - 1))
    (hmultiple : fraction % 2 ^ (52 - w.fractionBits) = 0) :
    w.Reads (w.pattern sign (biased + w.bias - 1023) (fraction / 2 ^ (52 - w.fractionBits)))
      (sign * 2 ^ 63 + biased * 2 ^ 52 + fraction) := by
  have hle := hw.fraction_le
  have hscaled := Nat.div_mul_cancel (Nat.dvd_of_mod_eq_zero hmultiple)
  have hsmall : fraction / 2 ^ (52 - w.fractionBits) < 2 ^ w.fractionBits := by
    rw [Nat.div_lt_iff_lt_mul (Nat.two_pow_pos _), ← Nat.pow_add,
      show w.fractionBits + (52 - w.fractionBits) = 52 by omega]
    exact hf
  obtain ⟨hsign, hbiased, hfraction⟩ := parts_pattern hs
    (by omega : biased + w.bias - 1023 < 2 ^ w.exponentBits) hsmall
  refine ⟨?_, pattern_lt hs (by omega) hsmall⟩
  simp only [widen, Nat.pow_eq, hsign, hbiased, hfraction, hscaled]
  rw [if_neg (by omega), if_pos (by omega),
    show biased + w.bias - 1023 + 1023 - w.bias = biased by omega]

/-- A number below the exponents of the format, of which no bit of the significand is lost. -/
theorem reads_subnormal (hf : fraction < 2 ^ 52)
    (hpos : 0 < biased) (hlow : biased + w.bias ≤ 1023)
    (hmultiple : (2 ^ 52 + fraction) % 2 ^ (52 - w.fractionBits + (1024 - biased - w.bias)) = 0) :
    w.Reads
      (w.pattern sign 0
        ((2 ^ 52 + fraction) / 2 ^ (52 - w.fractionBits + (1024 - biased - w.bias))))
      (sign * 2 ^ 63 + biased * 2 ^ 52 + fraction) := by
  obtain ⟨q, hq, hq0, hsmall, hshift, hscaled⟩ := subnormal_parts hw (by omega) hf hmultiple
  rw [hq]
  refine ⟨?_, pattern_lt hs (Nat.two_pow_pos _) hsmall⟩
  rw [widen_least hw hs hsmall, if_neg (by omega), hshift, hscaled,
    show 1024 - w.bias - (1024 - biased - w.bias) = biased by omega]

end

end

theorem widen_narrow? (hw : w.Narrow) (h : w.narrow? bits = some narrowed) :
    w.widen narrowed = oneNaN bits ∧
      narrowed < 2 ^ (1 + w.exponentBits + w.fractionBits) := by
  obtain ⟨hs, hparts⟩ := toNat_parts bits
  have hf : bits.toNat % 2 ^ 52 < 2 ^ 52 := Nat.mod_lt _ (by decide)
  have hmagnitude : bits.toNat % 2 ^ 63
      = bits.toNat / 2 ^ 52 % 2048 * 2 ^ 52 + bits.toNat % 2 ^ 52 := by omega
  -- It is enough to know the pattern of binary64 that is read.
  suffices hread : w.Reads narrowed (oneNaN bits).toNat from
    ⟨by simpa using hread.widen, hread.lt⟩
  unfold narrow? at h
  simp only [Nat.pow_eq] at h
  rw [oneNaN, hmagnitude, Binary64.infinityBits, Nat.pow_eq, apply_ite UInt64.toNat, hparts]
  generalize bits.toNat / 2 ^ 52 % 2048 = biased at *
  split at h
  · next hinf =>
    subst hinf
    split at h
    · next hzero =>
      obtain rfl := Option.some.inj h
      have hread := reads_top hs (Nat.two_pow_pos w.fractionBits)
      rw [pattern, Nat.add_zero, Nat.zero_mul] at hread
      rwa [if_neg (by omega), hzero]
    · obtain rfl := Option.some.inj h
      have hread := reads_noNumber hw
      rw [pattern, Nat.zero_mul, Nat.zero_add] at hread
      rwa [if_pos (by omega)]
  · rw [if_neg (by omega)]
    split at h
    · next hleast =>
      subst hleast
      split at h
      · next hzero =>
        obtain rfl := Option.some.inj h
        simpa [pattern, hzero] using reads_zero hw hs
      · cases h
    · split at h
      · cases h
      · split at h
        · split at h
          · next hmultiple =>
            obtain rfl := Option.some.inj h
            exact reads_normal hw hs hf (by omega) (by omega) hmultiple
          · cases h
        · split at h
          · next hmultiple =>
            obtain rfl := Option.some.inj h
            have hread := reads_subnormal hw hs hf (by omega) (by omega) hmultiple
            rwa [pattern, Nat.zero_mul, Nat.add_zero] at hread
          · cases h

theorem oneNaN_of_narrow?_eq_none (h : w.narrow? bits = none) : oneNaN bits = bits := by
  have hfinite : ¬ bits.toNat / 2 ^ 52 % 2048 = 2047 := by
    intro htop
    simp only [narrow?, Nat.pow_eq, htop, if_true] at h
    split at h <;> cases h
  rw [oneNaN, if_neg]
  rw [Binary64.infinityBits, Nat.pow_eq]
  omega

end

end Width

section

open Float.Model UnpackedFloat

variable {bits : UInt64}

/-- Patterns of no number have the greatest exponent and a fraction. -/
theorem infinityBits_lt_iff : Binary64.infinityBits < bits.toNat % 2 ^ 63 ↔
    @unpackExponent Format.binary64 bits.toBitVec = -1#11 ∧
      @unpackMantissa Format.binary64 bits.toBitVec ≠ 0#52 := by
  have hexponent : (@unpackExponent Format.binary64 bits.toBitVec).toNat
      = bits.toNat / 2 ^ 52 % 2 ^ 11 := by
    change (BitVec.extractLsb 62 52 bits.toBitVec).toNat = _
    rw [BitVec.extractLsb_toNat, Nat.shiftRight_eq_div_pow, UInt64.toNat_toBitVec]
  have hmantissa : (@unpackMantissa Format.binary64 bits.toBitVec).toNat
      = bits.toNat / 2 ^ 0 % 2 ^ 52 := by
    change (BitVec.extractLsb 51 0 bits.toBitVec).toNat = _
    rw [BitVec.extractLsb_toNat, Nat.shiftRight_eq_div_pow, UInt64.toNat_toBitVec]
  rw [Ne, ← BitVec.toNat_inj, ← BitVec.toNat_inj, hexponent, hmantissa, Binary64.infinityBits,
    Nat.pow_eq]
  change _ ↔ _ = 2047 ∧ ¬ _ = 0
  omega

/-- Numbers keep their pattern, but there is one pattern of no number. -/
theorem toBits_ofBits (bits : UInt64) : (Float.ofBits bits).toBits = oneNaN bits := by
  unfold oneNaN
  split
  · next hnan =>
    obtain ⟨hexponent, hmantissa⟩ := infinityBits_lt_iff.1 hnan
    have hunpack : unpack Format.binary64 bits.toBitVec = notANumber :=
      (if_pos hexponent).trans (if_neg hmantissa)
    change (Float.Model.pack (unpack Format.binary64 bits.toBitVec)).toBits = quietNaN
    rw [hunpack]
    rfl
  · next hnumber =>
    have hvalid : Format.binary64.Valid bits.toBitVec :=
      ⟨fun hexponent hmantissa => absurd (infinityBits_lt_iff.2 ⟨hexponent, hmantissa⟩) hnumber⟩
    exact congrArg Float.toBits (Float.ofBits_toBits (.ofModel ⟨bits, hvalid⟩))

end

theorem oneNaN_toBits (x : Float) : oneNaN x.toBits = x.toBits := by
  rw [← toBits_ofBits, Float.ofBits_toBits]

end Keystroke.Cbor
