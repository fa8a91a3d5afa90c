import Keystroke.Proofs.Store.Resolve

set_option autoImplicit false

/-! # Local labels in written lines

Which label a search finds, said of the lines that a program was written from and not of its bytes:
the first one that answers when the lines are looked through from the start of the search to the
last, and then from the first up to the start (`Store.findLocal_eq_first_in_cycle`). -/

namespace Keystroke

/-! ## Which labels answer -/

/-- The numbers that labels on the registers of the stack answer to. -/
def registerNumbers : List (UInt8 × Int32) :=
  [(ascii 'T', 112), (ascii 'Z', 113), (ascii 'Y', 114), (ascii 'X', 115), (ascii 'L', 116)]

theorem registerLabel?_eq_some_iff {register : UInt8} {n : Int32} :
    registerLabel? register = some n ↔ (register, n) ∈ registerNumbers := by
  simp only [registerNumbers, List.mem_cons, Prod.mk.injEq, List.not_mem_nil, or_false]
  unfold registerLabel?
  constructor
  · intro h
    split_ifs at h with hT hZ hY hX hL <;> obtain rfl := Option.some.inj h <;> simp [*]
  · rintro (⟨rfl, rfl⟩ | ⟨rfl, rfl⟩ | ⟨rfl, rfl⟩ | ⟨rfl, rfl⟩ | ⟨rfl, rfl⟩) <;> decide

/-- Whether a label with the operand `label` answers to `arg`: numbers that are not negative and
    letters to themselves, registers of the stack to their numbers and, unless labels are strict, to
    any register. -/
def Operand.answersTo (label : Operand) (strict : Bool) (arg : Operand) : Bool :=
  match label.kind, arg.kind with
  | .num, .num => decide (0 ≤ label.num) && label.num == arg.num
  | .letter, .letter => label.letter == arg.letter
  | .register, .num => decide ((label.register, arg.num) ∈ registerNumbers)
  | .register, .register => if strict then label.register == arg.register else arg.register != 0
  | _, _ => false

/-- Whether the line is a local label that answers to `arg`. -/
def Instr.answersTo (i : Instr) (strict : Bool) (arg : Operand) : Bool :=
  i.command == .lbl && i.operand.answersTo strict arg

namespace Instr

theorem drop_encode_lbl {i : Instr} {bytes : Bytes} (h : i.encode = .ok bytes)
    (hc : i.command = .lbl) : operandBytes i.normalize.operand = .ok (bytes.drop 2) := by
  obtain ⟨-, operand, ho, rfl⟩ := encode_eq_ok_iff.1 h
  have hcache : i.storedCache = [] := by
    rw [storedCache, Header.cached_of_lbl hc]
    rfl
  have hspelling : i.storedSpelling = [] := by
    have hplain : i.storedHeader.spelled = false := by
      simp [storedHeader, hc, Command.lbl, Command.number]
    rw [storedSpelling, hplain]
    rfl
  rw [ho, hcache, hspelling, List.append_nil, List.append_nil]
  rfl

/-- A negative number is stored as another kind of operand, which no argument asks for. -/
theorem answersTo_normalize (strict : Bool) (arg : Operand) {i : Instr} (hc : i.command = .lbl) :
    i.normalize.operand.answersTo strict arg = i.operand.answersTo strict arg := by
  have hne : i.command ≠ .number := by
    rw [hc]
    decide
  rw [normalize, if_pos hne]
  split
  · next hneg =>
    simp only [Bool.and_eq_true, decide_eq_true_eq] at hneg
    have hlt : ¬ 0 ≤ i.operand.num := Int32.not_le.2 hneg.2
    simp only [Operand.answersTo, hneg.1, hlt]
    cases arg.kind <;> rfl
  · rfl

end Instr

theorem isLocalLabel_of_operandBytes (strict : Bool) (arg : Operand) {h : Header} {a : Operand}
    {rest : Bytes} (hc : h.command = .lbl) (hk : h.kind = a.kind)
    (ho : Instr.operandBytes a = .ok (rest.drop 2)) :
    isLocalLabel strict arg h rest = .ok (a.answersTo strict arg) := by
  have hbyte : ∀ b, rest.drop 2 = [b] → rest[2]? = some b := by
    intro b hb
    rw [show rest[2]? = (rest.drop 2)[0]? by rw [List.getElem?_drop], hb]
    rfl
  unfold Instr.operandBytes at ho
  cases hkind : a.kind <;> simp only [hkind] at ho <;>
    simp only [isLocalLabel, hc, hk, hkind, if_true, Operand.answersTo]
  case num =>
    split at ho
    · exact absurd ho (by simp)
    · next hnum =>
      have hdecode := Varint.decode_encode a.num.toUInt32 []
      rw [List.append_nil, Except.ok.inj ho] at hdecode
      have hword : a.num.toUInt32.toInt32 = a.num := rfl
      rw [hdecode]
      cases arg.kind <;> simp [hword, Int32.not_lt.1 hnum]
  case register =>
    rw [hbyte _ (Except.ok.inj ho).symm]
    cases arg.kind
    case num => simp only [← registerLabel?_eq_some_iff, ← beq_eq_decide]
    all_goals rfl
  case letter =>
    rw [hbyte _ (Except.ok.inj ho).symm]
    cases arg.kind <;> rfl

/-- A stored line is a label for `arg` if the line that was written is one. -/
theorem Instr.StoredAs.exists_answers {i : Instr} {code : Bytes} (strict : Bool) (arg : Operand)
    (h : i.StoredAs code) (hz : i.hasZeroByte = false) :
    ∃ l : Line, l.bytes = code ∧ l.answers strict arg = i.answersTo strict arg := by
  obtain ⟨written, hw, hcode⟩ := h
  obtain ⟨l, rfl, hheader, -⟩ := exists_line_of_encode hw fun hnum h0 => by
    simp [hasZeroByte, hnum, h0] at hz
  have hanswers : l.answers strict arg = i.answersTo strict arg := by
    by_cases hc : i.command = .lbl
    · have hlabel := isLocalLabel_of_operandBytes strict arg (h := l.header)
        (by rw [hheader]; exact hc) (by rw [hheader]; rfl) (drop_encode_lbl hw hc)
      rw [Line.answers, hlabel, answersTo_normalize strict arg hc, answersTo, hc]
      rfl
    · have hother : l.header.command ≠ .lbl := by
        rw [hheader]
        exact hc
      simp only [Line.answers, isLocalLabel, if_neg hother, answersTo, beq_false_of_ne hc]
      rfl
  rcases hcode with rfl | ⟨hcached, t, rfl⟩
  · exact ⟨l, rfl, hanswers⟩
  · refine ⟨l.withTarget t, Line.bytes_withTarget t (by rw [hheader, hcached]), ?_⟩
    rw [Line.answers_withTarget, hanswers]

theorem exists_answering_lines {lines : List Instr} {codes : List Bytes} (strict : Bool)
    (arg : Operand) (h : List.Forall₂ Instr.StoredAs lines codes)
    (hz : ∀ i ∈ lines, i.hasZeroByte = false) :
    ∃ ls : List Line, codes = ls.map Line.bytes ∧
      ls.map (·.answers strict arg) = lines.map (·.answersTo strict arg) := by
  induction h with
  | nil => exact ⟨[], rfl, rfl⟩
  | cons hcode _ ih =>
    obtain ⟨hi, hlines⟩ := List.forall_mem_cons.1 hz
    obtain ⟨l, rfl, hl⟩ := hcode.exists_answers strict arg hi
    obtain ⟨ls, rfl, hls⟩ := ih hlines
    exact ⟨l :: ls, rfl, by rw [List.map_cons, List.map_cons, hl, hls]⟩

/-! ## The order of the search -/

/-- The numbers of `n` lines in the order in which a search from line `k` visits them. -/
def searchOrder (k n : Nat) : List Nat := List.range' k (n - k) ++ List.range k

/-- The first label among the lines from number `j` on, by its number. -/
theorem labelAt?_eq_find? (strict : Bool) (arg : Operand) (ls : List Line) (j n : Nat)
    (hn : j + n ≤ ls.length) :
    labelAt? strict arg (textOf (ls.take j)).length ((ls.drop j).take n)
      = ((List.range' j n).find? fun i => ls[i]?.any (·.answers strict arg)).map
          fun i => (textOf (ls.take i)).length := by
  induction n generalizing j with
  | zero => rfl
  | succ n ih =>
    have hj : j < ls.length := by omega
    have hnext : (textOf (ls.take (j + 1))).length
        = (textOf (ls.take j)).length + ls[j].size := by
      rw [List.take_succ_eq_append_getElem hj, textOf_append, List.length_append]
      simp [Line.size]
    rw [List.drop_eq_getElem_cons hj, List.take_succ_cons, labelAt?, ← hnext, ih (j + 1) (by omega),
      List.range'_succ, List.find?_cons, List.getElem?_eq_getElem hj, Option.any_some]
    cases ls[j].answers strict arg <;> rfl

/-- The two parts of a search, to the END and from the top, are one search in the order of the
    visits. -/
theorem labelAt?_or (strict : Bool) (arg : Operand) (ls : List Line) {k : Nat}
    (hk : k ≤ ls.length) :
    (labelAt? strict arg (textOf (ls.take k)).length (ls.drop k)).or
        (labelAt? strict arg 0 (ls.take k))
      = ((searchOrder k ls.length).find? fun i => ls[i]?.any (·.answers strict arg)).map
          fun i => (textOf (ls.take i)).length := by
  have hback := labelAt?_eq_find? strict arg ls k (ls.length - k) (by omega)
  have hfront := labelAt?_eq_find? strict arg ls 0 k (by omega)
  have hall : (ls.drop k).take (ls.length - k) = ls.drop k :=
    List.take_of_length_le (by rw [List.length_drop])
  rw [hall] at hback
  rw [List.take_zero, textOf_nil, List.length_nil, List.drop_zero] at hfront
  rw [hback, hfront, ← Option.map_or, searchOrder, List.find?_append, List.range_eq_range']

/-! ## Searches -/

/-- A search from a line, or from the END, finds the first label that answers: from there to the
    END, then from the top. The offset is exact as long as the program's offsets are numbers of 32
    bits. -/
theorem Store.findLocal_eq_first_in_cycle {s : Store} {ref : ProgramRef} {p : Program}
    {lines : List Instr} {codes : List Bytes} {k : Nat} (hp : s.program? ref = some p)
    (hcodes : List.Forall₂ Instr.StoredAs lines codes)
    (hz : ∀ i ∈ lines, i.hasZeroByte = false)
    (ht : p.buffer.text = codes.flatten ++ endBytes) (hk : k ≤ lines.length) (arg : Operand) :
    ∃ t, s.findLocal ref (codes.take k).flatten.length arg = .ok t ∧
      match (searchOrder k lines.length).find? fun j =>
        lines[j]?.any (·.answersTo s.options.strictLabels arg) with
      | some j => t = .ofNat (codes.take j).flatten.length ∧
          (p.buffer.text.length ≤ 2 ^ 31 → t.toInt = (codes.take j).flatten.length)
      | none => t = targetNone := by
  obtain ⟨ls, rfl, hanswers⟩ := exists_answering_lines s.options.strictLabels arg hcodes hz
  have hlength : ls.length = lines.length := by simpa using congrArg List.length hanswers
  have hflat : ∀ j, ((ls.map Line.bytes).take j).flatten = textOf (ls.take j) := by
    intro j
    rw [← List.map_take]
    rfl
  have hlines : (fun j : Nat => ls[j]?.any (·.answers s.options.strictLabels arg))
      = fun j : Nat => lines[j]?.any (·.answersTo s.options.strictLabels arg) := by
    funext j
    have hj := congrArg (·[j]?.any id) hanswers
    simpa only [List.getElem?_map, Option.any_map, Function.comp_def, id_eq] using hj
  have htext : p.buffer.text = textOf (ls.take k ++ ls.drop k ++ [Line.endLine]) := by
    rw [ht, List.take_append_drop, textOf_append]
    rfl
  have hfind := findLocal_textOf s.options.strictLabels arg (ls.take k) (ls.drop k)
  rw [labelAt?_or _ _ _ (by omega), hlines, hlength, ← htext, ← hflat] at hfind
  refine ⟨_, by rw [Store.findLocal, hp]; exact hfind, ?_⟩
  cases hfirst : (searchOrder k lines.length).find? fun j =>
      lines[j]?.any (·.answersTo s.options.strictLabels arg) with
  | none => rfl
  | some j =>
    have hle := length_flatten_take_le (ls.map Line.bytes) j
    rw [Option.map_some, labelTarget, ← hflat]
    refine ⟨rfl, fun hsize => ?_⟩
    have hend : endBytes.length = 2 := rfl
    rw [ht, List.length_append] at hsize
    rw [Int32.toInt_ofNat_of_lt (by omega)]

/-- A search from the line behind the last label comes around to the label on `ST X`, which answers
    to 115. The jump above it has its target already. -/
theorem Store.findLocal_eq_first_in_cycle_around :
    let label : Instr := ⟨.lbl, { kind := .register, register := ascii 'X' }, []⟩
    let codes : List Bytes := [[0x8F, 1, 0, 0, 0, 7, 0xF3], [0x5C, 3, 88], [8, 0]]
    let p : Program := { buffer := ⟨codes.flatten ++ endBytes, [], 50⟩ }
    let s : Store := { options := {}, programs := [p] }
    List.Forall₂ Instr.StoredAs [.withNum .gto 115, label, .plain ⟨8⟩] codes ∧
      s.findLocal (.user 0) 10 { kind := .num, num := 115 } = .ok 7 := by
  intro label codes p s
  have hcodes : List.Forall₂ Instr.StoredAs [.withNum .gto 115, label, .plain ⟨8⟩] codes :=
    .cons ⟨_, rfl, Or.inr ⟨by decide, 7, by decide⟩⟩ (.cons ⟨_, by decide, Or.inl rfl⟩
      (.cons ⟨_, by decide, Or.inl rfl⟩ .nil))
  have hp : s.program? (.user 0) = some p := rfl
  obtain ⟨t, ht, rfl, -⟩ := Store.findLocal_eq_first_in_cycle hp hcodes (by decide) rfl
    (show 2 ≤ 3 by decide) { kind := .num, num := 115 }
  exact ⟨hcodes, ht⟩

end Keystroke
