import Keystroke.Proofs.Store.Text

set_option autoImplicit false

/-! # Writing a line and reading it back

Wherever the bytes of a written line stand, they are read as one line, with what the line says
(`Instr.decodeAt_encode`). Writing what was read gives the bytes again (`Instr.encode_stored`),
since a line is written from what reading keeps of it: its command, the field that the kind of its
operand uses, and the spelling of its number up to the exponent mark. -/

namespace Keystroke

variable {a : Operand} {i : Instr}

/-! ## Spellings -/

theorem foldNumberByte_readMark (b : UInt8) : foldNumberByte (readMark b) = foldNumberByte b := by
  unfold readMark isExponentMark foldNumberByte exponentByte
  grind

theorem sameNumberText_readMark (usual text : Bytes) :
    sameNumberText usual (text.map readMark) = sameNumberText usual text := by
  have hfold : foldNumberByte ∘ readMark = foldNumberByte := funext foldNumberByte_readMark
  rw [sameNumberText, sameNumberText, List.map_map, hfold]

namespace Instr

theorem spellingBytes_readMark (text : Bytes) :
    spellingBytes (text.map readMark) = spellingBytes text := by
  unfold spellingBytes
  rw [List.map_map]
  congr 2
  funext b
  simp only [Function.comp_apply, readMark, isExponentMark, exponentByte]
  grind

theorem keptSpelling_readMark (value : UInt64) (text : Bytes) :
    keptSpelling value (text.map readMark) = (keptSpelling value text).map readMark := by
  unfold keptSpelling
  rw [sameNumberText_readMark]
  split <;> rfl

@[simp]
theorem keptSpelling_nil (value : UInt64) : keptSpelling value [] = [] := by
  unfold keptSpelling
  split <;> rfl

theorem keptSpelling_keptSpelling (value : UInt64) (text : Bytes) :
    keptSpelling value (keptSpelling value text) = keptSpelling value text := by
  by_cases h : (Binary64.toInt? value = some 0 || sameNumberText (canonicalNumber value) text)
  · have hnone : keptSpelling value text = [] := if_pos h
    rw [hnone, keptSpelling_nil]
  · have hkept : keptSpelling value text = text := if_neg h
    rw [hkept, hkept]

/-- A spelling is kept exactly when the number is not zero and the spelling is not the usual one. -/
theorem keptSpelling_eq (value : UInt64) (text : Bytes) :
    keptSpelling value text =
      if (value = Binary64.zero false ∨ value = Binary64.zero true) ∨
        sameNumberText (canonicalNumber value) text = true then [] else text := by
  simp only [keptSpelling, ← Binary64.toInt?_eq_zero_iff, Bool.or_eq_true, decide_eq_true_eq]

/-! ## Operands -/

theorem kind_relevant (h : a.kind ≠ .negNum) : a.relevant.kind = a.kind := by
  unfold Operand.relevant
  split <;> simp_all

theorem operandBytes_relevant (h : a.kind ≠ .negNum) :
    operandBytes a.relevant = operandBytes a := by
  unfold operandBytes
  rw [kind_relevant h]
  unfold Operand.relevant
  split <;> simp_all

theorem normalize_of_ne_number (h : i.command ≠ .number) :
    i.normalize.operand = if i.operand.kind = .num && i.operand.num < 0 then
      { i.operand with kind := .negNum, num := -i.operand.num } else i.operand := by
  unfold normalize
  split
  · rfl
  · rfl

theorem normalize_of_real (hn : i.command = .number) (hk : i.operand.kind = .real) :
    i.normalize
      = ⟨i.command, numberOperand i.operand, keptSpelling i.operand.value i.numberText⟩ := by
  simp [normalize, hk, hn]

/-- How a number is stored depends on the number alone, and not on the sign of a zero. -/
theorem operandBytes_numberOperand {b : Operand} (ha : a.kind = .real) (hb : b.kind = .real)
    (hvalue : b.value = if a.value = Binary64.zero true then 0 else a.value) :
    (numberOperand b).kind = (numberOperand a).kind ∧
      operandBytes (numberOperand b) = operandBytes (numberOperand a) := by
  by_cases hz : a.value = Binary64.zero true
  · have ha0 : Binary64.toInt? a.value = some 0 := by rw [hz, Binary64.toInt?_zero]
    have hb0 : Binary64.toInt? b.value = some 0 := by
      rw [hvalue, if_pos hz]
      exact Binary64.toInt?_zero false
    have hsame : numberOperand b = numberOperand a := by simp [numberOperand, ha0, hb0]
    rw [hsame]
    exact ⟨rfl, rfl⟩
  · rw [if_neg hz] at hvalue
    unfold numberOperand
    rw [hvalue]
    split
    · split
      · exact ⟨rfl, rfl⟩
      · exact ⟨hb.trans ha.symm, by simp [operandBytes, ha, hb, hvalue]⟩
    · exact ⟨hb.trans ha.symm, by simp [operandBytes, ha, hb, hvalue]⟩

/-! ## Writing again what was read -/

theorem stored_of_number (h : i.command = .number) :
    i.stored = ⟨i.command,
      { kind := .real,
        value := if i.operand.value = Binary64.zero true then 0 else i.operand.value },
      (keptSpelling i.operand.value i.numberText).map readMark⟩ :=
  if_pos h

theorem stored_of_ne_number (h : i.command ≠ .number) :
    i.stored = ⟨i.command, i.operand.relevant, []⟩ :=
  if_neg h

/-- The bytes of a line come from its command, its operand and, for a number, its spelling. -/
theorem encode_congr {j : Instr} (hc : j.command = i.command)
    (hkind : j.normalize.operand.kind = i.normalize.operand.kind)
    (hoperand : operandBytes j.normalize.operand = operandBytes i.normalize.operand)
    (hspelling : i.command = .number →
      spellingBytes j.normalize.numberText = spellingBytes i.normalize.numberText) :
    j.encode = i.encode := by
  unfold encode
  simp only [normalize_command, hc, hkind, hoperand]
  by_cases hn : i.command = .number
  · have hlength := congrArg List.length (hspelling hn)
    have hempty : j.normalize.numberText.isEmpty = i.normalize.numberText.isEmpty := by
      simp only [spellingBytes, List.length_append, List.length_map, Nat.add_right_cancel_iff]
        at hlength
      rw [Bool.eq_iff_iff, List.isEmpty_iff_length_eq_zero, List.isEmpty_iff_length_eq_zero,
        hlength]
    simp only [hempty, hspelling hn]
  · have hpack (kind : ArgKind) (s t : Bool) :
        (Header.mk i.command kind s).pack = (Header.mk i.command kind t).pack := by
      simp [Header.pack, hn]
    simp only [hn, decide_false, Bool.false_and, Bool.false_eq_true, if_false, Header.cached,
      hpack _ (!j.normalize.numberText.isEmpty) (!i.normalize.numberText.isEmpty)]
    rfl

theorem encode_stored (hsigned : i.operand.kind ≠ .negNum)
    (hreal : i.command = .number → i.operand.kind = .real) : i.stored.encode = i.encode := by
  by_cases hn : i.command = .number
  · have hk := hreal hn
    have hstored := stored_of_number hn
    obtain ⟨hkind, hoperand⟩ := operandBytes_numberOperand hk (b := i.stored.operand)
      (by rw [hstored]) (by rw [hstored])
    have hnorm := normalize_of_real hn hk
    have hagain : i.stored.normalize = ⟨i.stored.command, numberOperand i.stored.operand,
        keptSpelling i.stored.operand.value i.stored.numberText⟩ :=
      normalize_of_real (by rw [hstored]; exact hn) (by rw [hstored])
    refine encode_congr (by rw [hstored]) ?_ ?_ fun _ => ?_
    · rw [hagain, hnorm]
      exact hkind
    · rw [hagain, hnorm]
      exact hoperand
    · rw [hagain, hnorm, hstored]
      by_cases hz : i.operand.value = Binary64.zero true
      · have hnone : keptSpelling i.operand.value i.numberText = [] := by
          rw [keptSpelling_eq, if_pos (Or.inl (Or.inr hz))]
        rw [hnone, List.map_nil, keptSpelling_nil]
      · rw [if_neg hz, keptSpelling_readMark, keptSpelling_keptSpelling, spellingBytes_readMark]
  · have hstored := stored_of_ne_number hn
    have hnorm := normalize_of_ne_number hn
    have hagain : i.stored.normalize.operand
        = if i.operand.relevant.kind = .num && i.operand.relevant.num < 0 then
          { i.operand.relevant with kind := .negNum, num := -i.operand.relevant.num }
          else i.operand.relevant := by
      rw [hstored]
      exact normalize_of_ne_number hn
    have hkind := kind_relevant hsigned
    have hnum : i.operand.kind = .num → i.operand.relevant.num = i.operand.num := by
      intro hk
      simp only [Operand.relevant, hk]
    refine encode_congr (by rw [hstored]) ?_ ?_ fun h => absurd h hn
    · rw [hagain, hnorm, hkind]
      by_cases hk : i.operand.kind = .num
      · rw [hnum hk]
        split <;> simp [hkind]
      · simp [hk, hkind]
    · rw [hagain, hnorm, hkind]
      by_cases hk : i.operand.kind = .num
      · rw [hnum hk]
        split
        · simp [operandBytes]
        · exact operandBytes_relevant hsigned
      · simp only [hk, decide_false, Bool.false_and, Bool.false_eq_true, if_false]
        exact operandBytes_relevant hsigned

/-! ## Reading what was written -/

/-- A written line is read back wherever it stands. Of a number line there come back its number,
    without the sign of a zero, and its spelling if it says something; of any other line the field
    that the kind of its operand uses. Written again, the line that was read gives the same bytes.

    A byte string has less than `2 ^ 63` bytes, so that there is a number for each offset in it. -/
theorem decodeAt_encode {i : Instr} {b : Bytes} (h : i.encode = .ok b)
    (hsigned : i.operand.kind ≠ .negNum) (hreal : i.command = .number → i.operand.kind = .real)
    (hspelling : i.command = .number → 0 ∉ i.numberText) (pre post : Bytes)
    (hlength : (pre ++ b ++ post).length < 2 ^ 63) :
    lineSizeAt (pre ++ b ++ post) pre.length = .ok b.length ∧
      ∃ d, decodeAt (pre ++ b ++ post) pre.length = .ok (d, b.length) ∧
        d.command = i.command ∧
        (i.command = .number →
          d.operand =
            { kind := .real,
              value := if i.operand.value = Binary64.zero true then Binary64.zero false
                else i.operand.value } ∧
          d.numberText =
            if (i.operand.value = Binary64.zero false ∨ i.operand.value = Binary64.zero true) ∨
              sameNumberText (canonicalNumber i.operand.value) i.numberText = true then []
            else i.numberText.map readMark) ∧
        (i.command ≠ .number → d.operand = i.operand.relevant ∧
          d.operand.kind = i.operand.kind ∧ d.numberText = []) ∧
        d.operand.target = targetUnknown ∧ d.encode = .ok b := by
  obtain ⟨l, rfl, -, hl⟩ := exists_line_of_encode h hspelling
  rw [readBack_of_real hreal] at hl
  have hfront : (pre.length : Int) ≤ maxOffset := by
    have hsize := l.two_le_size
    simp only [List.length_append, Line.size] at hlength hsize
    simp only [maxOffset]
    omega
  have hsizeAt := lineSizeAt_line (List.append_assoc pre l.bytes post) hfront
  have hdecode := decodeAt_line (List.append_assoc pre l.bytes post) hfront
  rw [hl] at hdecode
  refine ⟨hsizeAt, i.stored, hdecode, ?_, fun hn => ?_, fun hn => ?_, ?_, ?_⟩
  · unfold stored
    split <;> rfl
  · rw [stored_of_number hn]
    refine ⟨rfl, ?_⟩
    rw [keptSpelling_eq, apply_ite (List.map readMark), List.map_nil]
  · rw [stored_of_ne_number hn]
    exact ⟨rfl, kind_relevant hsigned, rfl⟩
  · rw [← readBack_of_real hreal]
    exact target_readBack i
  · rw [encode_stored hsigned hreal, h]

/-- The number -2.5 spelled with a comma and an exponent, between two other bytes. -/
theorem decodeAt_encode_spelled :
    ∃ b d, (ofNumber 0xC004000000000000 (utf8 "-25,0e-1")).encode = .ok b ∧ b.length = 19 ∧
      decodeAt ([7] ++ b ++ [9]) 1 = .ok (d, b.length) ∧ d.operand.value = 0xC004000000000000 ∧
      d.numberText = utf8 "-25,0E-1" ∧ d.encode = .ok b := by
  obtain ⟨b, hb, hlength⟩ : ∃ b, (ofNumber 0xC004000000000000 (utf8 "-25,0e-1")).encode = .ok b ∧
      b.length = 19 := ⟨_, rfl, rfl⟩
  obtain ⟨-, d, hdecode, -, hnumber, -, -, hencode⟩ := decodeAt_encode hb (by decide) (fun _ => rfl)
    (fun _ => by decide) [7] [9] (by simp [hlength])
  obtain ⟨hoperand, htext⟩ := hnumber rfl
  refine ⟨b, d, hb, hlength, hdecode, ?_, ?_, hencode⟩
  · rw [hoperand]
    decide
  · rw [htext]
    decide

end Instr

end Keystroke
