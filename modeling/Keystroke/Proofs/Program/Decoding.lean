import Keystroke.Proofs.Store.Text

set_option autoImplicit false

/-! # Reading lines from any bytes

Whatever the bytes are, reading a line and scanning for its length agree, and both look at the bytes
of the line alone (`decodeAt_local`). The length is scanned first, and says that all bytes are there
that are then read without a further check (`Header.Complete`). -/

namespace Keystroke

/-- All bytes are there that an operand of the kind is read from. -/
def ArgKind.Complete : ArgKind → Bytes → Prop
  | num, rest | negNum, rest | indNum, rest | equation, rest => ∃ r, Varint.decode rest = some r
  | register, rest | indRegister, rest | letter, rest => 1 ≤ rest.length
  | text, rest | indText, rest => 1 ≤ rest.length ∧ (rest.headD 0).toNat ≤ rest.tail.length
  | real, rest => 8 ≤ rest.length
  | longText, rest => 2 ≤ rest.length ∧ ofLittleEndian (rest.take 2) ≤ (rest.drop 2).length
  | none, _ | labelIndex, _ | other _, _ => True

/-- All bytes are there that a line with this header is read from: those of its target and of its
    operand, and the zero behind its spelling. -/
structure Header.Complete (h : Header) (bytes : Bytes) : Prop where
  start : h.operandStart ≤ bytes.length
  operand : h.kind.Complete (bytes.drop h.operandStart)
  spelling : h.spelled = true → 0 ∈ bytes.drop (h.operandStart + h.operandUsed bytes)

variable {bytes : Bytes} {h : Header} {n : Nat}

theorem zero_mem_of_spellingSize (hn : spellingSize bytes ≤ bytes.length) : 0 ∈ bytes := by
  by_contra hzero
  have hall : bytes.takeWhile (· != 0) = bytes :=
    List.takeWhile_eq_self_iff.2 fun b hb => bne_iff_ne.2 fun h0 => hzero (h0 ▸ hb)
  rw [spellingSize, hall] at hn
  omega

theorem ArgKind.complete_of_operandSize {kind : ArgKind} {start used : Nat}
    (hsize : operandSize kind start bytes = .ok used) (hroom : used ≤ bytes.length) :
    kind.Complete bytes := by
  cases kind with
  | num | negNum | indNum | equation =>
    rw [operandSize] at hsize
    cases hd : Varint.decode bytes with
    | none => simp [hd] at hsize
    | some r => exact ⟨r, hd⟩
  | text | indText =>
    cases bytes with
    | nil => cases hsize
    | cons b rest =>
      obtain rfl := Except.ok.inj hsize
      exact ⟨by simp, by simpa using hroom⟩
  | longText =>
    cases bytes with
    | nil => cases hsize
    | cons low rest =>
      cases rest with
      | nil => cases hsize
      | cons high rest =>
        obtain rfl := Except.ok.inj hsize
        exact ⟨by simp, by simp at hroom ⊢; omega⟩
  | register | indRegister | letter | real =>
    obtain rfl := Except.ok.inj hsize
    exact hroom
  | none | labelIndex | other c => trivial

theorem Header.complete_of_lineSize (hsize : lineSize bytes = .ok n)
    (hread : Header.read? bytes = some h) : h.Complete bytes := by
  obtain ⟨h', used, hread', hstart, hused, rfl, hle⟩ := lineSize_eq_ok_iff.1 hsize
  obtain rfl : h = h' := Option.some.inj (hread.symm.trans hread')
  have hsum := h.le_sizeWith used bytes
  refine ⟨hstart, ArgKind.complete_of_operandSize hused ?_, fun hspelled => ?_⟩
  · rw [List.length_drop]
    omega
  · have hoperand : h.operandUsed bytes = used := by
      rw [operandUsed, hused]
      rfl
    rw [hoperand]
    rw [sizeWith, if_pos hspelled] at hle
    refine zero_mem_of_spellingSize ?_
    rw [List.length_drop]
    omega

theorem lineSizeAt_eq_map (text : Bytes) (pc : Int) :
    lineSizeAt text pc = (decodeAt text pc).map (·.2) := by
  rw [lineSizeAt, decodeAt]
  split
  · rfl
  · cases bytesFrom? text pc with
    | none => rfl
    | some bytes =>
      dsimp only
      rw [decodeLine_eq]
      cases hsize : lineSize bytes with
      | error e => rfl
      | ok n =>
        obtain ⟨h, -, hread, -⟩ := lineSize_eq_ok_iff.1 hsize
        rw [hread]
        rfl

theorem decodeAt_ne_unaddressable (text : Bytes) {pc : Int} (hpc : pc ≤ maxOffset) :
    decodeAt text pc ≠ .error .unaddressable := by
  rw [decodeAt, if_neg (Int.not_lt.2 hpc)]
  cases bytesFrom? text pc with
  | none => simp
  | some bytes =>
    dsimp only
    cases decodeLine bytes with
    | ok r => simp [Except.mapError]
    | error e => cases e <;> simp [Except.mapError, Misread.at_]

/-- The line at an offset of a text is one at the front of the text from there on. -/
theorem decodeLine_of_decodeAt {text : Bytes} {pc : Int} {r : Instr × Nat}
    (h : decodeAt text pc = .ok r) : 0 ≤ pc ∧ decodeLine (text.drop pc.toNat) = .ok r := by
  rw [decodeAt] at h
  split at h
  · cases h
  · rw [bytesFrom?] at h
    by_cases hneg : pc < 0
    · simp [hneg] at h
    · simp only [hneg, if_false] at h
      cases hline : decodeLine (text.drop pc.toNat) with
      | ok r' =>
        rw [hline] at h
        exact ⟨Int.not_lt.1 hneg, congrArg _ (Except.ok.inj h)⟩
      | error e =>
        rw [hline] at h
        cases h

/-- The line at the front of a byte string is read from its bytes alone. -/
theorem decodeLine_take {i : Instr} (h : decodeLine bytes = .ok (i, n)) (post : Bytes) :
    decodeLine (bytes.take n ++ post) = .ok (i, n) := by
  obtain ⟨-, -, -, -, -, -, hle⟩ := lineSize_eq_ok_iff.1 (decodeLine_eq_ok_iff.1 h).1
  have hlength : (bytes.take n).length = n := List.length_take_of_le hle
  rw [← List.take_append_drop n bytes] at h
  have hmoved := @decodeLine_of_append i (bytes.take n) (bytes.drop n) post
    (by rw [hlength]; exact h)
  rwa [hlength] at hmoved

/-- Reading a line at an offset, and scanning for its length, never crash. They succeed on the same
    bytes, with the same length, and fail alike; a line that is read has all its bytes in the text,
    and wherever these bytes stand, whatever is in front of them and behind, they are read as the
    same line. -/
theorem decodeAt_local (text : Bytes) {pc : Int} (hpc : pc ≤ maxOffset) :
    decodeAt text pc ≠ .error .unaddressable ∧
    lineSizeAt text pc = (decodeAt text pc).map (·.2) ∧
    ∀ i n, decodeAt text pc = .ok (i, n) → 0 ≤ pc ∧ 2 ≤ n ∧ pc + n ≤ text.length ∧
      (∃ h, headerAt? text pc = some h ∧ h.Complete ((text.drop pc.toNat).take n)) ∧
      ∀ pre post : Bytes, (pre.length : Int) ≤ maxOffset →
        decodeAt (pre ++ (text.drop pc.toNat).take n ++ post) pre.length = .ok (i, n) ∧
          lineSizeAt (pre ++ (text.drop pc.toNat).take n ++ post) pre.length = .ok n := by
  refine ⟨decodeAt_ne_unaddressable text hpc, lineSizeAt_eq_map text pc, fun i n hread => ?_⟩
  obtain ⟨hpos, hline⟩ := decodeLine_of_decodeAt hread
  obtain ⟨h, used, hheader, -, -, hn, hle⟩ := lineSize_eq_ok_iff.1 (decodeLine_eq_ok_iff.1 hline).1
  have hstart := h.operandStart_le
  have hsum := h.le_sizeWith used (text.drop pc.toNat)
  have hdecode := decodeLine_take hline
  obtain ⟨hsize, h', hfront, -⟩ := decodeLine_eq_ok_iff.1 (hdecode [])
  rw [List.append_nil] at hsize hfront
  refine ⟨hpos, by omega, by rw [List.length_drop] at hle; omega, ⟨h', ?_, ?_⟩, ?_⟩
  · rw [headerAt?, bytesFrom?, if_neg (by omega), Option.bind_some,
      ← List.take_append_drop n (text.drop pc.toNat)]
    exact Header.read?_append _ hfront
  · exact Header.complete_of_lineSize hsize hfront
  · intro pre post hpre
    have hat : decodeAt (pre ++ (text.drop pc.toNat).take n ++ post) pre.length = .ok (i, n) := by
      rw [List.append_assoc, decodeAt_append _ _ hpre, hdecode]
      rfl
    exact ⟨hat, by rw [lineSizeAt_eq_map, hat]; rfl⟩

/-- A jump behind an END, in a text that stops in the middle of another jump. -/
theorem decodeAt_local_jump :
    ∃ text i, text = [0x90, 0, 0x8F, 1, 0xFF, 0xFF, 0xFF, 0xFF, 0x85, 0x8F, 1] ∧
      decodeAt text 2 = .ok (i, 7) ∧ i.operand.num = 5 ∧
      decodeAt ([7] ++ (text.drop 2).take 7 ++ []) 1 = .ok (i, 7) ∧
      lineSizeAt text 9 = .error (.truncated 9) := by
  obtain ⟨text, i, htext, hi, hnum⟩ : ∃ text i,
      text = [0x90, 0, 0x8F, 1, 0xFF, 0xFF, 0xFF, 0xFF, 0x85, 0x8F, 1] ∧
        decodeAt text 2 = .ok (i, 7) ∧ i.operand.num = 5 := ⟨_, _, rfl, rfl, by decide⟩
  obtain ⟨-, -, hlocal⟩ := @decodeAt_local text 2 (by decide)
  obtain ⟨-, -, -, -, hmoved⟩ := hlocal i 7 hi
  exact ⟨text, i, htext, hi, hnum, (hmoved [7] [] (by decide)).1, by rw [htext]; decide⟩

end Keystroke
