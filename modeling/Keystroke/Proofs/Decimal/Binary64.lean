import Keystroke.Decimal.Binary64
import Mathlib

set_option autoImplicit false

/-! # Integers among the binary64 numbers

A number line whose value is a small integer is stored as that integer. Nothing is lost by it: the
pattern nearest to the integer is the one that was taken apart (`Binary64.ofInt_of_toInt?`), except
that a negative zero comes back positive. -/

namespace Keystroke.Binary64

variable {n : Nat} {bits : UInt64} {negative : Bool} {exponent : Int}

/-- The pattern nearest to an integer of at most 53 bits: its bits are shifted until the highest one
    has the weight that a mantissa starts with. -/
theorem nearest_one (h0 : 0 < n) (h : n < 2 ^ 53) :
    nearest n 1 = (n.log2 + 1022) * 2 ^ 52 + n * 2 ^ (52 - n.log2) := by
  have hn : n ≠ 0 := by omega
  have hlog : n.log2 ≤ 52 := by
    have := (Nat.log2_lt hn).2 h
    omega
  have hlow : 2 ^ n.log2 ≤ n := Nat.log2_self_le hn
  have hguess : ((n.log2 : Int) - (Nat.log2 1 : Nat) - 52) = -((52 - n.log2 : Nat) : Int) := by
    rw [show Nat.log2 1 = 0 by decide]
    omega
  have hscale : scale n 1 (-((52 - n.log2 : Nat) : Int)) = (n * 2 ^ (52 - n.log2), 1) := by
    unfold scale
    simp only [Int.natAbs_neg, Int.natAbs_natCast]
    split
    · rfl
    · have : 52 - n.log2 = 0 := by omega
      simp [this]
  have hbig : ¬ n * 2 ^ (52 - n.log2) / 1 < Nat.pow 2 52 := by
    rw [Nat.div_one, not_lt]
    calc Nat.pow 2 52 = 2 ^ n.log2 * 2 ^ (52 - n.log2) := by
          rw [← pow_add, Nat.add_sub_cancel' hlog]
          rfl
      _ ≤ n * 2 ^ (52 - n.log2) := Nat.mul_le_mul_right _ hlow
  have hexp : unitExponent n 1 = -((52 - n.log2 : Nat) : Int) := by
    simp only [unitExponent, hguess, hscale, if_neg hbig]
    omega
  have hplace : (-((52 - n.log2 : Nat) : Int) + 1074).toNat = n.log2 + 1022 := by omega
  simp only [nearest, hexp, hscale, hplace, Nat.mod_one, Nat.div_one]
  simp [hn]

/-- An integer whose bits fill a mantissa when they are shifted by `k` is found again with that
    mantissa. -/
theorem nearest_of_mantissa {k fraction : Nat} (h0 : 0 < n) (hn : n < 2 ^ 53)
    (hm : fraction + 2 ^ 52 = n * 2 ^ k) (hf : fraction < 2 ^ 52) :
    k ≤ 52 ∧ nearest n 1 = (1075 - k) * 2 ^ 52 + fraction := by
  have hk : k ≤ 52 := by
    by_contra hbig
    have : 2 ^ 53 ≤ n * 2 ^ k := calc
      2 ^ 53 ≤ 2 ^ k := Nat.pow_le_pow_right (by decide) (by omega)
      _ ≤ n * 2 ^ k := Nat.le_mul_of_pos_left _ h0
    omega
  have hlog : n.log2 = 52 - k := by
    have hne : n ≠ 0 := by omega
    have hlow : 2 ^ (52 - k) ≤ n := by
      apply Nat.le_of_mul_le_mul_right (c := 2 ^ k) _ (by positivity)
      rw [← pow_add, Nat.sub_add_cancel hk]
      omega
    have hhigh : n < 2 ^ (53 - k) := by
      apply Nat.lt_of_mul_lt_mul_right
      rw [← pow_add, Nat.sub_add_cancel (by omega)]
      omega
    have h1 := (Nat.le_log2 hne).2 hlow
    have h2 := (Nat.log2_lt hne).2 hhigh
    omega
  refine ⟨hk, ?_⟩
  calc nearest n 1 = (52 - k + 1022) * 2 ^ 52 + n * 2 ^ (52 - (52 - k)) := by
        rw [nearest_one h0 hn, hlog]
    _ = (52 - k + 1022) * 2 ^ 52 + (fraction + 2 ^ 52) := by
        rw [hm, show 52 - (52 - k) = k by omega]
    _ = (52 - k + 1022 + 1) * 2 ^ 52 + fraction := by ring
    _ = (1075 - k) * 2 ^ 52 + fraction := by rw [show 52 - k + 1022 + 1 = 1075 - k by omega]

theorem nearest_of_value {mantissa : Nat} (hv : value bits = .finite negative mantissa exponent)
    (he : exponent < 0) (hm : mantissa = n * 2 ^ exponent.natAbs) (h0 : 0 < n) (h : n < 2 ^ 53) :
    bits.toNat = (if negative then 2 ^ 63 else 0) + nearest n 1 ∧ nearest n 1 < infinityBits := by
  have hlt := bits.toNat_lt
  have hpow63 : Nat.pow 2 63 = 9223372036854775808 := rfl
  have hpow52 : Nat.pow 2 52 = 4503599627370496 := rfl
  simp only [value, hpow63, hpow52] at hv
  split at hv
  · split at hv <;> exact absurd hv (by simp)
  · split at hv
    · -- a number with the smallest exponent is less than one
      obtain ⟨rfl, rfl, rfl⟩ := Value.finite.inj hv
      have hle : 2 ^ Int.natAbs (-1074) ≤ n * 2 ^ Int.natAbs (-1074) := Nat.le_mul_of_pos_left _ h0
      have hpow : (2 : Nat) ^ 52 ≤ 2 ^ Int.natAbs (-1074) :=
        Nat.pow_le_pow_right (by decide) (by decide)
      omega
    · next hb1 hb0 =>
      obtain ⟨rfl, rfl, rfl⟩ := Value.finite.inj hv
      have hfrac : bits.toNat % 4503599627370496 < 2 ^ 52 := Nat.mod_lt _ (by decide)
      obtain ⟨hk, hnear⟩ := nearest_of_mantissa h0 h hm hfrac
      have hinf : infinityBits = 2047 * 4503599627370496 := rfl
      cases hs : (bits.toNat / 9223372036854775808 == 1) with
      | false =>
        have hs' := beq_eq_false_iff_ne.1 hs
        simp only [Bool.false_eq_true, if_false]
        omega
      | true =>
        have hs' := beq_iff_eq.1 hs
        simp only [if_true, Nat.reducePow]
        omega

/-- Patterns without a magnitude are the two zeros. -/
theorem eq_zero_of_value (hv : value bits = .finite negative 0 exponent) :
    bits = 0 ∨ bits = zero true := by
  have hlt := bits.toNat_lt
  have hpow63 : Nat.pow 2 63 = 9223372036854775808 := rfl
  have hpow52 : Nat.pow 2 52 = 4503599627370496 := rfl
  simp only [value, hpow63, hpow52] at hv
  split at hv
  · split at hv <;> exact absurd hv (by simp)
  · split at hv
    · next hb =>
      have hfrac := (Value.finite.inj hv).2.1
      simp only [beq_iff_eq] at hb
      have hzero : bits.toNat = 0 ∨ bits.toNat = 9223372036854775808 := by omega
      rcases hzero with h | h
      · left
        exact UInt64.toNat_inj.mp h
      · right
        exact UInt64.toNat_inj.mp h
    · have hfrac := (Value.finite.inj hv).2.1
      omega

/-- Both zeros are integers; the negative one is the only integer that does not come back as it
    was. -/
theorem toInt?_zero (negative : Bool) : toInt? (zero negative) = some 0 := by
  have hv : value (zero negative) = .finite negative 0 (-1074) := by cases negative <;> decide
  simp only [toInt?, hv, Nat.zero_mod, Nat.zero_div]
  cases negative <;> rfl

/-- A mantissa that is not scaled down has all its bits. -/
theorem le_mantissa_of_value {mantissa : Nat} (hv : value bits = .finite negative mantissa exponent)
    (he : 0 ≤ exponent) : 2 ^ 52 ≤ mantissa := by
  have hpow52 : Nat.pow 2 52 = 4503599627370496 := rfl
  simp only [value, hpow52] at hv
  split at hv
  · split at hv <;> exact absurd hv (by simp)
  · split at hv
    · have := (Value.finite.inj hv).2.2
      omega
    · have := (Value.finite.inj hv).2.1
      omega

theorem exists_magnitude {n : Int} (h : toInt? bits = some n) (hlow : -2147483648 < n)
    (hhigh : n < 2147483648) :
    ∃ negative mantissa exponent, ∃ m : Nat, value bits = .finite negative mantissa exponent ∧
      exponent < 0 ∧ mantissa = m * 2 ^ exponent.natAbs ∧ m < 2 ^ 53 ∧
      n = if negative then -(m : Int) else m := by
  unfold toInt? at h
  cases hv : value bits with
  | infinite negative | nan => simp [hv] at h
  | finite negative mantissa exponent =>
    simp only [hv] at h
    split at h
    · next he =>
      split at h
      · next hmod =>
        have hn := Option.some.inj h
        refine ⟨negative, mantissa, exponent, mantissa / Nat.pow 2 exponent.natAbs, rfl, he, ?_, ?_,
          hn.symm⟩
        · exact (Nat.div_mul_cancel (Nat.dvd_of_mod_eq_zero hmod)).symm
        · simp only [Nat.reducePow]
          split at hn <;> omega
      · exact absurd h (by simp)
    · next he =>
      have hbig := le_mantissa_of_value hv (by omega)
      have hle : mantissa ≤ mantissa * Nat.pow 2 exponent.natAbs :=
        Nat.le_mul_of_pos_right _ (Nat.pow_pos (by decide))
      have hn := Option.some.inj h
      split at hn <;> omega

/-- A number that is a small integer is the pattern of that integer, if it is not the negative
    zero. -/
theorem ofInt_of_toInt? {n : Int} (h : toInt? bits = some n) (hlow : -2147483648 < n)
    (hhigh : n < 2147483648) (hz : bits ≠ zero true) : ofInt n = bits := by
  obtain ⟨negative, mantissa, exponent, m, hv, he, hm, hlt, hn⟩ := exists_magnitude h hlow hhigh
  rcases Nat.eq_zero_or_pos m with rfl | h0
  · rw [Nat.zero_mul] at hm
    subst hm
    have hn0 : n = 0 := by
      rw [hn]
      split <;> rfl
    rw [hn0, (eq_zero_of_value hv).resolve_right hz]
    decide
  · obtain ⟨hbits, hfin⟩ := nearest_of_value hv he hm h0 hlt
    have habs : n.natAbs = m := by
      rw [hn]
      split <;> simp
    have hneg : decide (n < 0) = negative := by
      rw [hn]
      cases negative <;> simp [h0]
    have hsome : ofInt n = if negative then (Nat.pow 2 63 + nearest m 1).toUInt64
        else (nearest m 1).toUInt64 := by
      simp only [ofInt, ofFraction?, habs, hneg, if_neg (Nat.not_le.2 hfin)]
    rw [hsome]
    cases negative with
    | false =>
      simp only [Bool.false_eq_true, if_false, Nat.zero_add] at hbits ⊢
      rw [← hbits]
      exact UInt64.ofNat_toNat
    | true =>
      rw [show Nat.pow 2 63 + nearest m 1 = bits.toNat from hbits.symm]
      exact UInt64.ofNat_toNat

theorem toInt?_eq_zero_iff : toInt? bits = some 0 ↔ bits = zero false ∨ bits = zero true := by
  constructor
  · intro h
    by_cases hz : bits = zero true
    · exact Or.inr hz
    · left
      rw [← ofInt_of_toInt? h (by decide) (by decide) hz]
      decide
  · rintro (rfl | rfl) <;> exact toInt?_zero _

end Keystroke.Binary64
