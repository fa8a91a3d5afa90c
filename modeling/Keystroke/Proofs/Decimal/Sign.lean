import Keystroke.Decimal.Reader
import Mathlib

set_option autoImplicit false

/-! # Numbers without a minus

A text that starts with no minus spells no negative number, and turning the pattern that is read
into a number adds no sign. So negative zero is never read. -/

namespace Keystroke

variable {bits : UInt64} {b : UInt8}

open Float.Model UnpackedFloat

/-! ## Patterns -/

namespace Binary64

theorem msb_packComponents (e : BitVec 11) (m : BitVec 52) :
    (packComponents Format.binary64 .positive e m).msb = false := by
  have h : ((0#1 ++ e) ++ m).msb = false := by
    rw [BitVec.msb_append, BitVec.msb_append]
    rfl
  exact h

theorem msb_pack_finite {m : Nat} {e : Int} (hm : 0 < m) :
    (UnpackedFloat.pack Format.binary64 (.finite .positive m e hm)).msb = false := by
  simp only [UnpackedFloat.pack]
  split_ifs <;> exact msb_packComponents _ _

theorem toBits_ofBits_lt (h : bits.toNat < 2 ^ 63) : (Float.ofBits bits).toBits.toNat < 2 ^ 63 := by
  have hsign : @unpackSign Format.binary64 bits.toBitVec = 0#1 := by
    change BitVec.extractLsb 63 63 bits.toBitVec = 0#1
    apply BitVec.eq_of_toNat_eq
    have hshift : bits.toBitVec.toNat >>> 63 = 0 := by
      rw [Nat.shiftRight_eq_div_pow, UInt64.toNat_toBitVec, Nat.div_eq_of_lt h]
    rw [BitVec.extractLsb_toNat, hshift]
    rfl
  have hmsb : (UnpackedFloat.pack Format.binary64
      (UnpackedFloat.unpack Format.binary64 bits.toBitVec)).msb = false := by
    unfold UnpackedFloat.unpack
    simp only [hsign, Sign.ofBitVec, if_true]
    split_ifs
    · exact msb_packComponents _ _
    · exact msb_packComponents _ _
    · exact msb_packComponents _ _
    · exact msb_pack_finite _
    · exact msb_pack_finite _
  have hlt := BitVec.msb_eq_false_iff_two_mul_lt.1 hmsb
  change 2 * (Float.ofBits bits).toBits.toNat < 2 ^ 64 at hlt
  omega

theorem ofFraction?_finite {num den : Nat} (h : ofFraction? false num den = some bits) :
    bits.toNat < infinityBits := by
  simp only [ofFraction?, Bool.false_eq_true, if_false] at h
  split at h
  · cases h
  · next hlt =>
    obtain rfl := Option.some_inj.1 h
    exact Nat.lt_of_le_of_lt (Nat.mod_le _ _) (Nat.lt_of_not_le hlt)

end Binary64

/-! ## Texts -/

namespace Decimal

theorem readSign_of_ne (rest : Bytes) (hb : b ≠ ascii '-') : (readSign (b :: rest)).1 = false := by
  unfold readSign
  simp only [beq_iff_eq, hb, if_false]
  split <;> rfl

theorem assemble_finite {base mantissa : Nat} {exponent : Int}
    (h : assemble false base mantissa exponent = .ok bits) :
    bits.toNat < Binary64.infinityBits := by
  unfold assemble at h
  split at h
  · obtain rfl := Except.ok.inj h
    decide
  · dsimp only at h
    split at h
    · next hbits =>
      obtain rfl := Except.ok.inj h
      exact Binary64.ofFraction?_finite hbits
    · cases h

theorem readDigits_finite {text : Bytes} (hsign : (readSign text).1 = false)
    (h : readDigits text = .ok bits) : bits.toNat < Binary64.infinityBits := by
  unfold readDigits at h
  simp only [hsign] at h
  repeat' split at h
  all_goals first | exact assemble_finite h | cases h

theorem read_lt {rest : Bytes} (hb : b ≠ ascii '-') (h : read (b :: rest) = .ok bits) :
    bits.toNat < 2 ^ 63 := by
  have hsign := readSign_of_ne rest hb
  unfold read at h
  split at h
  · next word hword =>
    obtain rfl := Except.ok.inj h
    unfold readWord? at hword
    simp only [hsign] at hword
    split at hword
    · obtain rfl := Option.some_inj.1 hword
      decide
    · split at hword
      · obtain rfl := Option.some_inj.1 hword
        decide
      · cases hword
  · exact Nat.lt_trans (readDigits_finite hsign h) (by decide)

end Decimal

end Keystroke
