import Keystroke.Proofs.Decimal.Binary64
import Keystroke.Proofs.Program.Line

set_option autoImplicit false

/-! # Written lines

A line that was written, its number text being free of zero bytes, is exactly one line and reads
back as what was stored of it (`Instr.exists_line_of_encode`): the command, the part of the operand
that its kind uses, and for a number line the spelling if it says something. -/

namespace Keystroke

open List

variable {b : UInt8} {operand : Bytes}

variable {a : Operand} {bytes text : Bytes} {i : Instr} {c : Command}

/-! ## The first two bytes -/

theorem and_highBits (n : Nat) : n &&& 1792 = 256 * (n / 256 % 8) := by
  have h1792 : 1792 = 2 ^ 8 * (2 ^ 3 - 1) := by decide
  apply Nat.eq_of_testBit_eq
  intro i
  rw [h1792, show 256 * (n / 256 % 8) = 2 ^ 8 * (n / 2 ^ 8 % 2 ^ 3) by norm_num]
  simp only [Nat.testBit_and, Nat.testBit_two_pow_mul, Nat.testBit_mod_two_pow,
    Nat.testBit_div_two_pow, Nat.testBit_two_pow_sub_one]
  by_cases hi : 8 ≤ i
  · rw [Nat.sub_add_cancel hi, Bool.and_comm (n.testBit i)]
    simp [hi]
  · simp [hi]

theorem highByte_parts : ∀ (kind : Fin 16) (bits : Fin 8),
    let high := UInt8.ofNat kind ||| UInt8.ofNat (16 * bits)
    high &&& 0x0F = UInt8.ofNat kind ∧ (high ||| 0x80) &&& 0x0F = UInt8.ofNat kind ∧
    (high &&& 0x70).toUInt16 <<< 4 = UInt16.ofNat (256 * bits) ∧
    ((high ||| 0x80) &&& 0x70).toUInt16 <<< 4 = UInt16.ofNat (256 * bits) ∧
    (high &&& 0x80 != 0) = false ∧ ((high ||| 0x80) &&& 0x80 != 0) = true := by
  decide

theorem command_parts {c : UInt16} (h : c ≤ Command.maxCode) :
    c.toNat / 256 < 8 ∧
    ((c &&& 0x700) >>> 4).toUInt8 = UInt8.ofNat (16 * (c.toNat / 256)) ∧
    (c &&& 0xFF).toUInt8.toUInt16 ||| UInt16.ofNat (256 * (c.toNat / 256)) = c := by
  have hlt : c.toNat < 2048 := by
    have hle := UInt16.le_iff_toNat_le.1 h
    simp only [Command.maxCode, UInt16.reduceToNat] at hle
    omega
  have hbits : c.toNat / 256 % 8 = c.toNat / 256 := Nat.mod_eq_of_lt (by omega)
  refine ⟨by omega, ?_, ?_⟩
  · apply UInt8.toNat_inj.mp
    simp only [UInt16.toNat_toUInt8, UInt16.toNat_shiftRight, UInt16.toNat_and, UInt16.reduceToNat,
      Nat.reduceMod, and_highBits, hbits, UInt8.toNat_ofNat', Nat.shiftRight_eq_div_pow]
    omega
  · have hlow : (c.toNat &&& 255) = c.toNat % 256 := Nat.and_two_pow_sub_one_eq_mod c.toNat 8
    apply UInt16.toNat_inj.mp
    simp only [UInt16.toNat_or, UInt8.toNat_toUInt16, UInt16.toNat_toUInt8, UInt16.toNat_and,
      UInt16.reduceToNat, hlow, UInt16.toNat_ofNat', Nat.reducePow]
    rw [Nat.mod_mod, Nat.mod_eq_of_lt (show 256 * (c.toNat / 256) < 65536 by omega), Nat.or_comm,
      show 256 * (c.toNat / 256) = (c.toNat / 256) <<< 8 by rw [Nat.shiftLeft_eq]; omega,
      ← Nat.shiftLeft_add_eq_or_of_lt (show c.toNat % 256 < 2 ^ 8 by omega), Nat.shiftLeft_eq]
    omega

namespace ArgKind

/-- Whether a line can be stored with an operand of this kind. -/
def isStorable : ArgKind → Bool
  | labelIndex | other _ => false
  | _ => true

theorem ofCode_code {kind : ArgKind} (h : kind.isStorable = true) :
    ofCode kind.code = kind ∧ kind.code.toNat < 16 := by
  cases kind <;> first | decide | simp [isStorable] at h

end ArgKind

theorem Header.read?_pack (h : Header) (hc : h.command.code ≤ Command.maxCode)
    (hk : h.kind.isStorable = true) (rest : Bytes) :
    read? (h.pack ++ rest) = some { h with spelled := h.command == .number && h.spelled } := by
  obtain ⟨hkind, hlt⟩ := ArgKind.ofCode_code hk
  obtain ⟨hbits, hshift, hjoin⟩ := command_parts hc
  obtain ⟨h1, h2, h3, h4, h5, h6⟩ := highByte_parts ⟨h.kind.code.toNat, hlt⟩ ⟨_, hbits⟩
  have hcode : UInt8.ofNat h.kind.code.toNat = h.kind.code := UInt8.ofNat_toNat
  simp only [hcode] at h1 h2 h3 h4 h5 h6
  have hcommand : (⟨h.command.code⟩ : Command) = h.command := rfl
  simp only [pack, cons_append, nil_append, read?, ofBytes, hshift]
  by_cases hs : (h.spelled && h.command == .number) = true
  · have hboth := hs
    simp only [Bool.and_eq_true] at hs
    simp only [hs.1, hs.2, Bool.and_self, if_true, h2, h4, h6, hjoin, hkind, hcommand]
  · simp only [Bool.not_eq_true] at hs
    have hboth := hs
    rw [Bool.and_comm] at hboth
    simp only [hs, Bool.false_eq_true, if_false, h1, h3, h5, hjoin, hkind, hcommand, hboth,
      Bool.and_false]

theorem Header.length_pack (h : Header) : h.pack.length = 2 := rfl

/-! ## Operands -/

@[simp]
theorem length_littleEndian (width n : Nat) : (littleEndian width n).length = width := by
  induction width generalizing n with
  | zero => rfl
  | succ width ih => simp [littleEndian, ih]

theorem ofLittleEndian_littleEndian (width n : Nat) (h : n < 256 ^ width) :
    ofLittleEndian (littleEndian width n) = n := by
  induction width generalizing n with
  | zero =>
    have : n = 0 := by simpa using h
    simp [littleEndian, ofLittleEndian, this]
  | succ width ih =>
    have hdiv : n / 256 < 256 ^ width := by
      rw [Nat.div_lt_iff_lt_mul (by decide), ← pow_succ]
      exact h
    simp only [littleEndian, ofLittleEndian, ih _ hdiv]
    rw [UInt8.toNat_ofNat']
    omega

namespace Operand

/-- What a line that is read back has of an operand: the field that its kind uses. A negative
    number has its sign again. -/
def relevant (a : Operand) : Operand :=
  match a.kind with
  | .num | .indNum | .equation => { kind := a.kind, num := a.num }
  | .negNum => { kind := .num, num := -a.num }
  | .register | .indRegister => { kind := a.kind, register := a.register }
  | .letter => { kind := a.kind, letter := a.letter }
  | .text | .indText => { kind := a.kind, text := a.text }
  | .real => { kind := a.kind, value := a.value }
  | .longText => { kind := a.kind, text := a.text.take maxLongTextLength }
  | .none | .labelIndex | .other _ => { kind := a.kind }

theorem target_relevant (a : Operand) : a.relevant.target = targetUnknown := by
  unfold relevant
  split <;> rfl

end Operand

theorem isStorable_of_operandBytes (h : Instr.operandBytes a = .ok bytes) :
    a.kind.isStorable = true := by
  unfold Instr.operandBytes at h
  split at h <;> simp_all [ArgKind.isStorable]

theorem length_toUInt8 (h : ¬ maxTextLength < text.length) :
    (text.length.toUInt8).toNat = text.length := by
  unfold maxTextLength at h
  rw [UInt8.toNat_ofNat']
  omega

theorem length_longText (text : Bytes) :
    ofLittleEndian (littleEndian 2 (text.take maxLongTextLength).length)
      = (text.take maxLongTextLength).length := by
  apply ofLittleEndian_littleEndian
  simp only [length_take, maxLongTextLength]
  omega

/-- A written operand has its size and is read back, whatever stands behind it. -/
theorem operand_operandBytes (start : Nat) (rest : Bytes) (h : Instr.operandBytes a = .ok bytes) :
    operandSize a.kind start (bytes ++ rest) = .ok bytes.length ∧
      readOperand a.kind (bytes ++ rest) = a.relevant := by
  unfold Instr.operandBytes at h
  unfold Operand.relevant
  have hword : ∀ n : Int32, n.toUInt32.toInt32 = n := fun _ => rfl
  cases hk : a.kind <;> simp only [hk] at h
  case num | negNum | indNum | equation =>
    split at h
    · exact absurd h (by simp)
    · obtain rfl := Except.ok.inj h
      simp only [operandSize, readOperand, Varint.decode_encode, Option.map_some, Option.getD_some,
        hword, and_self]
  case none | register | indRegister | letter =>
    obtain rfl := Except.ok.inj h
    exact ⟨rfl, rfl⟩
  case text | indText =>
    split at h
    · exact absurd h (by simp)
    · next hlen =>
      obtain rfl := Except.ok.inj h
      simp only [operandSize, readOperand, cons_append, headD_cons, tail_cons,
        length_toUInt8 hlen, length_cons, take_left, and_self]
  case real =>
    obtain rfl := Except.ok.inj h
    have htake : (littleEndian 8 a.value.toNat ++ rest).take 8 = littleEndian 8 a.value.toNat := by
      rw [take_append_of_le_length (by simp), take_of_length_le (by simp)]
    refine ⟨by simp [operandSize], ?_⟩
    simp only [readOperand, htake]
    rw [ofLittleEndian_littleEndian 8 _ (by have := a.value.toNat_lt; omega)]
    simp
  case longText =>
    obtain rfl := Except.ok.inj h
    have hlen := length_longText a.text
    simp only [littleEndian, cons_append, nil_append] at hlen ⊢
    simp only [operandSize, readOperand, take_succ_cons, take_zero, drop_succ_cons, drop_zero,
      hlen, take_left, length_cons, and_true]
    congr 1
    omega
  all_goals exact absurd h (by simp)

/-! ## Spellings -/

/-- A byte of a number's spelling as it is read back: all exponent marks are one. -/
def readMark (b : UInt8) : UInt8 := if isExponentMark b then 69 else b

theorem takeWhile_spellingBytes (rest : Bytes) (h : 0 ∉ text) :
    (Instr.spellingBytes text ++ rest).takeWhile (· != 0)
      = text.map fun b => if b = 69 || b = 101 then exponentByte else b := by
  unfold Instr.spellingBytes
  induction text with
  | nil => simp
  | cons b text ih =>
    simp only [mem_cons, not_or] at h
    have hb : ((if b = 69 || b = 101 then exponentByte else b) != 0) = true := by
      split
      · decide
      · simpa using fun hb => h.1 hb.symm
    simp only [map_cons, cons_append, takeWhile_cons, hb, if_true]
    rw [ih h.2]

theorem spellingSize_spellingBytes (rest : Bytes) (h : 0 ∉ text) :
    spellingSize (Instr.spellingBytes text ++ rest) = (Instr.spellingBytes text).length := by
  rw [spellingSize, takeWhile_spellingBytes rest h]
  simp [Instr.spellingBytes]

theorem readSpelling_spellingBytes (rest : Bytes) (h : 0 ∉ text) :
    readSpelling (Instr.spellingBytes text ++ rest) = text.map readMark := by
  rw [readSpelling, takeWhile_spellingBytes rest h, map_map]
  congr 1
  funext b
  simp only [Function.comp_apply, readMark, isExponentMark]
  by_cases h69 : b = 69
  · subst h69
    decide
  · by_cases h101 : b = 101
    · subst h101
      decide
    · simp [h69, h101]

/-! ## Whole lines -/

namespace Instr

@[simp]
theorem normalize_command (i : Instr) : i.normalize.command = i.command := by
  simp only [normalize]
  split
  · rfl
  · split <;> rfl

theorem mem_keptSpelling {value : UInt64} (h : b ∈ keptSpelling value text) : b ∈ text := by
  unfold keptSpelling at h
  split at h
  · exact absurd h (by simp)
  · exact h

theorem mem_normalize_numberText (h : b ∈ i.normalize.numberText) : b ∈ i.numberText := by
  unfold normalize at h
  split at h
  · exact h
  · split at h
    · exact absurd h (by simp)
    · exact mem_keptSpelling h

/-- The header that a line is stored with, before its spelling is dropped for want of a number. -/
def packedHeader (i : Instr) : Header :=
  ⟨i.command, i.normalize.operand.kind, !i.normalize.numberText.isEmpty⟩

/-- The header that a stored line reads back with. -/
def storedHeader (i : Instr) : Header :=
  { i.packedHeader with spelled := i.command == .number && !i.normalize.numberText.isEmpty }

/-- The spelling behind a stored line. -/
def storedSpelling (i : Instr) : Bytes :=
  if i.storedHeader.spelled then spellingBytes i.normalize.numberText else []

/-- The bytes reserved for the target of a stored line. -/
def storedCache (i : Instr) : Bytes :=
  if i.storedHeader.cached then [0xFF, 0xFF, 0xFF, 0xFF] else []

theorem encode_eq_ok_iff :
    i.encode = .ok bytes ↔ i.command.code ≤ Command.maxCode ∧
      ∃ operand, operandBytes i.normalize.operand = .ok operand ∧
        bytes = i.packedHeader.pack ++ i.storedCache ++ operand ++ i.storedSpelling := by
  unfold encode
  by_cases hc : Command.maxCode < i.command.code
  · rw [if_pos hc]
    refine ⟨fun h => absurd h (by simp), fun h => absurd hc (UInt16.not_lt.2 h.1)⟩
  · rw [if_neg hc]
    simp only [normalize_command]
    cases ho : operandBytes i.normalize.operand with
    | error e => simp [bind, Except.bind]
    | ok operand =>
      simp only [bind, Except.bind, pure, Except.pure, Except.ok.injEq, exists_eq_left',
        UInt16.not_lt.1 hc, true_and]
      exact eq_comm

/-- A number operand as it is read: always as a binary64 number. -/
def readNumber (a : Operand) : Operand :=
  if a.kind = .real then a else { kind := .real, value := Binary64.ofInt a.num.toInt }

/-- The line that a stored line reads back as. -/
def readBack (i : Instr) : Instr :=
  if i.command = .number then
    ⟨i.command, readNumber i.normalize.operand.relevant, i.normalize.numberText.map readMark⟩
  else ⟨i.command, i.normalize.operand.relevant, []⟩

theorem target_readBack (i : Instr) : i.readBack.operand.target = targetUnknown := by
  unfold readBack readNumber
  split
  · dsimp only
    split
    · exact Operand.target_relevant _
    · rfl
  · exact Operand.target_relevant _

theorem length_storedCache (i : Instr) :
    (i.packedHeader.pack ++ i.storedCache).length = i.storedHeader.operandStart := by
  simp only [storedCache, Header.operandStart, length_append, Header.length_pack]
  split <;> rfl

theorem operandOf_parts (rest : Bytes) (ho : operandBytes i.normalize.operand = .ok operand) :
    i.storedHeader.operandOf (i.packedHeader.pack ++ i.storedCache ++ (operand ++ rest))
      = i.normalize.operand.relevant := by
  have hread : readOperand i.storedHeader.kind (operand ++ rest) = i.normalize.operand.relevant :=
    (operand_operandBytes 0 rest ho).2
  simp only [Header.operandOf, ← length_storedCache, drop_left, hread]
  split
  · next hc =>
    have hcache : i.storedCache = [0xFF, 0xFF, 0xFF, 0xFF] := by
      simp only [storedCache, hc, if_true]
    have hunknown : targetOf ((i.packedHeader.pack ++ i.storedCache ++ (operand ++ rest)).drop
        Header.size) = targetUnknown := by
      rw [hcache]
      rfl
    rw [hunknown, ← i.normalize.operand.target_relevant]
  · rfl

/-- The parts of a stored line are one line when the spelling behind them ends at its last byte. -/
theorem exists_line_of_parts (spelling : Bytes) (hc : i.command.code ≤ Command.maxCode)
    (ho : operandBytes i.normalize.operand = .ok operand)
    (hs : if i.storedHeader.spelled then spellingSize spelling = spelling.length
      else spelling = []) :
    ∃ l : Line, l.bytes = i.packedHeader.pack ++ i.storedCache ++ (operand ++ spelling) ∧
      l.header = i.storedHeader ∧
      l.instr = if i.command = .number then
        ⟨i.command, readNumber i.normalize.operand.relevant,
          if i.storedHeader.spelled then readSpelling spelling else []⟩
        else ⟨i.command, i.normalize.operand.relevant, []⟩ := by
  have hread : Header.read? (i.packedHeader.pack ++ i.storedCache ++ (operand ++ spelling))
      = some i.storedHeader := by
    exact Header.read?_pack i.packedHeader hc (isStorable_of_operandBytes ho) _
  have hdrop : (i.packedHeader.pack ++ i.storedCache ++ (operand ++ spelling)).drop
      i.storedHeader.operandStart = operand ++ spelling := by
    rw [← length_storedCache, drop_left]
  have hused : operandSize i.storedHeader.kind i.storedHeader.operandStart (operand ++ spelling)
      = .ok operand.length := (operand_operandBytes _ _ ho).1
  have hbehind : (i.packedHeader.pack ++ i.storedCache ++ (operand ++ spelling)).drop
      (i.storedHeader.operandStart + operand.length) = spelling := by
    rw [← drop_drop, hdrop, drop_left]
  have hlen : (i.packedHeader.pack ++ i.storedCache ++ (operand ++ spelling)).length
      = i.storedHeader.operandStart + operand.length + spelling.length := by
    rw [length_append, length_storedCache, length_append]
    omega
  have hsize : i.storedHeader.sizeWith operand.length
      (i.packedHeader.pack ++ i.storedCache ++ (operand ++ spelling))
      = i.storedHeader.operandStart + operand.length + spelling.length := by
    rw [Header.sizeWith, hbehind]
    split at hs
    · next h => rw [if_pos h, hs]
    · next h => rw [if_neg h, hs, length_nil, Nat.add_zero]
  have hexact := lineSize_eq_ok_iff.2 ⟨i.storedHeader, operand.length, hread, by omega,
    by rw [hdrop, hused], by rw [hlen, hsize], le_refl _⟩
  refine ⟨⟨_, hexact⟩, rfl, ?_, ?_⟩
  · exact Option.some.inj ((Line.read?_bytes ⟨_, hexact⟩).symm.trans hread)
  · have hheader : (Line.mk _ hexact).header = i.storedHeader :=
      Option.some.inj ((Line.read?_bytes ⟨_, hexact⟩).symm.trans hread)
    have hcount : i.storedHeader.operandUsed
        (i.packedHeader.pack ++ i.storedCache ++ (operand ++ spelling)) = operand.length := by
      simp only [Header.operandUsed, hdrop, hused, Except.toOption, Option.getD_some]
    rw [Line.instr, hheader]
    simp only [Header.instrOf, operandOf_parts spelling ho, hcount, hbehind]
    rfl

/-- A written line is one line, with the header and the content that were stored. -/
theorem exists_line_of_encode (h : i.encode = .ok bytes)
    (hz : i.command = .number → 0 ∉ i.numberText) :
    ∃ l : Line, l.bytes = bytes ∧ l.header = i.storedHeader ∧ l.instr = i.readBack := by
  obtain ⟨hc, operand, ho, rfl⟩ := encode_eq_ok_iff.1 h
  rw [append_assoc]
  by_cases hs : i.storedHeader.spelled = true
  · have hnum : i.command = .number ∧ i.normalize.numberText ≠ [] := by
      simpa [storedHeader] using hs
    have hfree : 0 ∉ i.normalize.numberText := fun h0 => hz hnum.1 (mem_normalize_numberText h0)
    have hspell : i.storedSpelling = spellingBytes i.normalize.numberText := by
      simp only [storedSpelling, hs, if_true]
    have hsize := spellingSize_spellingBytes [] hfree
    have htext := readSpelling_spellingBytes [] hfree
    rw [append_nil] at hsize htext
    obtain ⟨l, hb, hh, hi⟩ := exists_line_of_parts i.storedSpelling hc ho
      (by rw [if_pos hs, hspell, hsize])
    refine ⟨l, hb, hh, ?_⟩
    rw [hi, if_pos hnum.1, if_pos hs, hspell, htext, readBack, if_pos hnum.1]
  · have hspell : i.storedSpelling = [] := by simp only [storedSpelling, if_neg hs]
    obtain ⟨l, hb, hh, hi⟩ := exists_line_of_parts i.storedSpelling hc ho
      (by rw [if_neg hs, hspell])
    refine ⟨l, hb, hh, ?_⟩
    rw [hi, readBack]
    split
    · next hnum =>
      have hnone : i.normalize.numberText = [] := by
        simpa [storedHeader, hnum] using hs
      rw [hnone, map_nil]
    · rfl

/-- A line that was written starts with one line. Bytes are left over only behind a number whose
    spelling has a zero byte. -/
theorem exists_line_front_of_encode (h : i.encode = .ok bytes) :
    ∃ (l : Line) (behind : Bytes), bytes = l.bytes ++ behind ∧ l.header = i.storedHeader ∧
      (behind = [] ∨ i.command = .number ∧ 0 ∈ i.numberText) := by
  by_cases hz : i.command = .number ∧ 0 ∈ i.numberText
  · obtain ⟨hc, operand, ho, rfl⟩ := encode_eq_ok_iff.1 h
    by_cases hs : i.storedHeader.spelled = true
    · -- the spelling is read up to its first zero byte only
      have hzero : 0 ∈ i.storedSpelling := by simp [storedSpelling, hs, spellingBytes]
      obtain ⟨front, behind, hsplit, hfront⟩ := eq_append_cons_of_mem hzero
      have hsize : spellingSize (front ++ [0]) = (front ++ [0]).length := by
        have hall : ∀ b ∈ front, (b != 0) = true := fun b hb => by
          simpa using fun h0 : b = 0 => hfront (h0 ▸ hb)
        simp [spellingSize, takeWhile_append_of_pos hall]
      obtain ⟨l, hb, hh, -⟩ := exists_line_of_parts (front ++ [0]) hc ho (by rw [if_pos hs, hsize])
      refine ⟨l, behind, ?_, hh, Or.inr hz⟩
      rw [hb, hsplit]
      simp
    · have hspell : i.storedSpelling = [] := by simp only [storedSpelling, if_neg hs]
      obtain ⟨l, hb, hh, -⟩ := exists_line_of_parts [] hc ho (by rw [if_neg hs])
      exact ⟨l, [], by rw [hb, hspell]; simp, hh, Or.inl rfl⟩
  · obtain ⟨l, hb, hh, -⟩ := exists_line_of_encode h (fun hn h0 => hz ⟨hn, h0⟩)
    exact ⟨l, [], by rw [hb, append_nil], hh, Or.inl rfl⟩

/-! ## Well-formed lines -/

/-- Lines as editors make them and as reading gives them: they can be stored, are no END, keep the
    sign of a number with it, and have numbers as binary64 with a spelling free of zero bytes. -/
structure WellFormed (i : Instr) : Prop where
  storable : ∃ bytes, i.encode = .ok bytes
  notEnd : i.command ≠ .endLine
  signed : i.operand.kind ≠ .negNum
  real : i.command = .number → i.operand.kind = .real
  spelling : i.command = .number → 0 ∉ i.numberText

/-- A well-formed line as it is stored: of the operand what its kind uses, and for a number the
    spelling if it says something. A negative zero loses its sign. -/
def stored (i : Instr) : Instr :=
  if i.command = .number then
    ⟨i.command,
      { kind := .real,
        value := if i.operand.value = Binary64.zero true then 0 else i.operand.value },
      (keptSpelling i.operand.value i.numberText).map readMark⟩
  else ⟨i.command, i.operand.relevant, []⟩

theorem readNumber_numberOperand (hk : a.kind = .real) :
    readNumber (numberOperand a).relevant
      = { kind := .real, value := if a.value = Binary64.zero true then 0 else a.value } := by
  have hzero := Binary64.toInt?_zero true
  unfold numberOperand
  cases hn : Binary64.toInt? a.value with
  | none =>
    have hne : a.value ≠ Binary64.zero true := by
      intro h
      rw [h, hzero] at hn
      simp at hn
    simp [Operand.relevant, hk, readNumber, hne]
  | some n =>
    by_cases hr : (decide (-2147483648 < n) && decide (n ≤ 2147483647)) = true
    · simp only [hr, if_true]
      simp only [Bool.and_eq_true, decide_eq_true_eq] at hr
      have hnum : (Int32.ofInt n).toInt = n := Int32.toInt_ofInt_of_le (by omega) (by omega)
      have hvalue : Binary64.ofInt n
          = if a.value = Binary64.zero true then 0 else a.value := by
        split
        · next hv =>
          rw [hv, hzero] at hn
          rw [← Option.some.inj hn]
          decide
        · next hv => exact Binary64.ofInt_of_toInt? hn hr.1 (by omega) hv
      split
      · simp [Operand.relevant, readNumber, hnum, hvalue]
      · simp [Operand.relevant, readNumber, hnum, hvalue]
    · have hne : a.value ≠ Binary64.zero true := by
        intro h
        rw [h, hzero] at hn
        rw [← Option.some.inj hn] at hr
        exact hr (by decide)
      simp [Operand.relevant, hr, hk, readNumber, hne]

theorem readBack_of_real (h : i.command = .number → i.operand.kind = .real) :
    i.readBack = i.stored := by
  unfold readBack stored
  split
  · next hn =>
    have hk := h hn
    have hnorm : i.normalize
        = ⟨i.command, numberOperand i.operand, keptSpelling i.operand.value i.numberText⟩ := by
      simp [normalize, hk, hn]
    rw [hnorm, readNumber_numberOperand hk]
  · unfold normalize
    split
    · next hneg =>
      simp only [Bool.and_eq_true, decide_eq_true_eq] at hneg
      simp [Operand.relevant, hneg.1]
    · rfl

theorem readBack_of_wellFormed (h : i.WellFormed) : i.readBack = i.stored := readBack_of_real h.real

@[simp]
theorem stored_plain (h : c ≠ .number) : (plain c).stored = plain c := by
  simp [stored, plain, h, Operand.relevant]

@[simp]
theorem stored_withName (h : c ≠ .number) (name : Bytes) :
    (withName c name).stored = withName c name := by
  simp [stored, withName, h, Operand.relevant]

@[simp]
theorem stored_withNum (h : c ≠ .number) (n : Int32) : (withNum c n).stored = withNum c n := by
  simp [stored, withNum, h, Operand.relevant]

end Instr

end Keystroke
