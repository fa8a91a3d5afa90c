import Keystroke.Proofs.Program.Encode
import Keystroke.Store.Jump

set_option autoImplicit false

/-! # Texts as lists of lines

The bytes of a program are lines one behind the other, the last of them an END. What the store does
to the bytes is said here about the list of lines: where lines start (`lineStarts_go_textOf`), how
they are read (`decodeLines_textOf`), what clearing the targets of jumps leaves
(`clearTargets_textOf`), that the scan for labels goes through (`scanLabels_textOf`), and which line
a number leads to (`lineOffset_textOf`). -/

namespace Keystroke

open List

variable {ls : List Line} {l : Line}

/-- The bytes of a list of lines. -/
def textOf (ls : List Line) : Bytes := ls.flatMap Line.bytes

@[simp]
theorem textOf_nil : textOf [] = [] := rfl

@[simp]
theorem textOf_cons (l : Line) (ls : List Line) : textOf (l :: ls) = l.bytes ++ textOf ls := rfl

@[simp]
theorem textOf_append (ls ms : List Line) : textOf (ls ++ ms) = textOf ls ++ textOf ms := by
  simp [textOf]

theorem length_le_length_textOf (ls : List Line) : 2 * ls.length ≤ (textOf ls).length := by
  induction ls with
  | nil => simp
  | cons l ls ih =>
    have := l.two_le_size
    simp only [Line.size] at this
    simp only [textOf_cons, length_append, length_cons]
    omega

/-- A text is the text of one list of lines only. -/
theorem textOf_inj {ms : List Line} (h : textOf ls = textOf ms) : ls = ms := by
  induction ls generalizing ms with
  | nil =>
    cases ms with
    | nil => rfl
    | cons m ms =>
      have := length_le_length_textOf (m :: ms)
      rw [← h] at this
      simp at this
  | cons l ls ih =>
    cases ms with
    | nil =>
      have := length_le_length_textOf (l :: ls)
      rw [h] at this
      simp at this
    | cons m ms =>
      have hsize : l.size = m.size := by
        have hl := l.lineSize_append (textOf ls)
        rw [← textOf_cons, h, textOf_cons, m.lineSize_append] at hl
        exact (Except.ok.inj hl).symm
      obtain ⟨hlm, hrest⟩ := append_inj h hsize
      rw [Line.ext hlm, ih hrest]

theorem textOf_cons_ne_nil (l : Line) (ls : List Line) : textOf (l :: ls) ≠ [] := by
  have := length_le_length_textOf (l :: ls)
  intro h
  rw [h] at this
  simp at this

theorem drop_textOf (front back : List Line) :
    (textOf (front ++ back)).drop (textOf front).length = textOf back := by
  rw [textOf_append, drop_left]

/-! ## The END -/

namespace Line

/-- The END as a line. -/
def endLine : Line := ⟨endBytes, by decide⟩

@[simp]
theorem bytes_endLine : endLine.bytes = endBytes := rfl

@[simp]
theorem size_endLine : endLine.size = 2 := rfl

@[simp]
theorem header_endLine : endLine.header = ⟨.endLine, .none, false⟩ := rfl

@[simp]
theorem instr_endLine : endLine.instr = .plain .endLine := by decide

/-- Whether the line is an END. -/
def isEnd (l : Line) : Bool := l.header.command == .endLine

@[simp]
theorem isEnd_endLine : endLine.isEnd = true := rfl

@[simp]
theorem isEnd_withTarget (l : Line) (t : Int32) : (l.withTarget t).isEnd = l.isEnd := by
  simp [isEnd]

theorem isEnd_iff : l.isEnd = true ↔ l.header.command = .endLine := by
  simp [isEnd]

end Line

/-! ## Where lines start -/

/-- The offsets at which the lines of a text start, up to the first that cannot be read. Each line
    has at least two bytes, so the number of bytes bounds them. -/
def lineStarts (text : Bytes) : List Nat :=
  go text.length 0 text
where
  /-- The offsets from one on, `rest` being the bytes there. -/
  go : Nat → Nat → Bytes → List Nat
    | _, _, [] => []
    | 0, _, _ => []
    | count + 1, pc, rest =>
      match lineSize rest with
      | .error _ => []
      | .ok size => pc :: go count (pc + size) (rest.drop size)

/-- The `k`-th line of a text, counted from zero, starts at an offset. -/
def LineAt (text : Bytes) (k pc : Nat) : Prop := (lineStarts text)[k]? = some pc

instance (text : Bytes) (k pc : Nat) : Decidable (LineAt text k pc) :=
  inferInstanceAs (Decidable (_ = _))

theorem lineStarts_go_textOf (ls : List Line) (here : Nat) {count : Nat} (h : ls.length ≤ count) :
    lineStarts.go count here (textOf ls)
      = (range ls.length).map fun k => here + (textOf (ls.take k)).length := by
  induction ls generalizing here count with
  | nil => cases count <;> simp [lineStarts.go]
  | cons l ls ih =>
    cases count with
    | zero => simp at h
    | succ count =>
      have hgo : lineStarts.go (count + 1) here (textOf (l :: ls))
          = here :: lineStarts.go count (here + l.size) (textOf ls) := by
        rw [lineStarts.go]
        · simp [Line.size]
        · exact textOf_cons_ne_nil l ls
      rw [hgo, ih _ (by simpa using h), length_cons, range_succ_eq_map]
      simp [Function.comp_def, Line.size, Nat.add_assoc]

theorem lineStarts_textOf (ls : List Line) :
    lineStarts (textOf ls) = (range ls.length).map fun k => (textOf (ls.take k)).length := by
  rw [lineStarts, lineStarts_go_textOf ls 0 (by have := length_le_length_textOf ls; omega)]
  simp only [Nat.zero_add]

theorem lineAt_textOf {k pc : Nat} :
    LineAt (textOf ls) k pc ↔
      ∃ front l back, ls = front ++ l :: back ∧ front.length = k ∧ (textOf front).length = pc := by
  simp only [LineAt, lineStarts_textOf, getElem?_eq_some_iff, length_map, length_range, getElem_map,
    getElem_range]
  constructor
  · rintro ⟨hk, rfl⟩
    exact ⟨ls.take k, ls[k], ls.drop (k + 1), by simp, by simp; omega, rfl⟩
  · rintro ⟨front, l, back, rfl, rfl, rfl⟩
    exact ⟨by simp, by simp⟩

/-! ## Reading -/

theorem decodeLines_go_textOf (ls : List Line) (count here : Nat) (h : ls.length ≤ count) :
    decodeLines.go count here (textOf ls) = .ok (ls.map Line.instr) := by
  induction ls generalizing count here with
  | nil => cases count <;> rfl
  | cons l ls ih =>
    cases count with
    | zero => simp at h
    | succ count =>
      have hdrop : (l.bytes ++ textOf ls).drop l.size = textOf ls := drop_left
      rw [decodeLines.go]
      · simp only [textOf_cons, Line.decodeLine_append, Except.mapError, bind, Except.bind, hdrop,
          ih count _ (by simpa using h)]
        rfl
      · exact textOf_cons_ne_nil l ls

theorem decodeLines_textOf (ls : List Line) :
    decodeLines (textOf ls) = .ok (ls.map Line.instr) := by
  have hlen := length_le_length_textOf ls
  exact decodeLines_go_textOf ls _ 0 (by omega)

/-! ### At an offset -/

theorem bytesFrom?_append (front rest : Bytes) :
    bytesFrom? (front ++ rest) front.length = some rest := by
  simp [bytesFrom?]

theorem lineSizeAt_append (front rest : Bytes) (h : (front.length : Int) ≤ maxOffset) :
    lineSizeAt (front ++ rest) front.length = (lineSize rest).mapError (·.at_ front.length) := by
  rw [lineSizeAt, if_neg (by omega), bytesFrom?_append]

theorem decodeAt_append (front rest : Bytes) (h : (front.length : Int) ≤ maxOffset) :
    decodeAt (front ++ rest) front.length = (decodeLine rest).mapError (·.at_ front.length) := by
  rw [decodeAt, if_neg (by omega), bytesFrom?_append]

section

variable {text front rest : Bytes} (ht : text = front ++ (l.bytes ++ rest))

include ht

theorem headerAt?_line : headerAt? text front.length = some l.header := by
  rw [ht, headerAt?, bytesFrom?_append, Option.bind_some, Line.read?_append]

theorem lineSizeAt_line (h : (front.length : Int) ≤ maxOffset) :
    lineSizeAt text front.length = .ok l.size := by
  rw [ht, lineSizeAt_append _ _ h, Line.lineSize_append]
  rfl

theorem decodeAt_line (h : (front.length : Int) ≤ maxOffset) :
    decodeAt text front.length = .ok (l.instr, l.size) := by
  rw [ht, decodeAt_append _ _ h, Line.decodeLine_append]
  rfl

end

/-! ## Targets -/

theorem writeTarget_append (front rest : Bytes) (t : Int32) (hc : l.header.cached = true) :
    writeTarget (front ++ (l.bytes ++ rest)) front.length t
      = .ok (front ++ ((l.withTarget t).bytes ++ rest)) := by
  have hsix := Line.six_le_size hc
  simp only [Line.size] at hsix
  have hlen : ¬ (front ++ (l.bytes ++ rest)).length
      < front.length + Header.size + Header.cacheSize := by
    simp only [length_append, Header.size, Header.cacheSize]
    omega
  have htake : (front ++ (l.bytes ++ rest)).take (front.length + Header.size)
      = front ++ l.bytes.take 2 := by
    rw [take_length_add_append, take_append_of_le_length (by simp [Header.size]; omega)]
    rfl
  have hdrop : (front ++ (l.bytes ++ rest)).drop (front.length + Header.size + Header.cacheSize)
      = l.bytes.drop 6 ++ rest := by
    rw [Nat.add_assoc, drop_length_add_append,
      drop_append_of_le_length (by simp [Header.size, Header.cacheSize]; omega)]
    rfl
  rw [writeTarget, if_neg hlen, htake, hdrop, Line.bytes_withTarget t hc, patchTarget]
  simp only [append_assoc]

/-- The lines with the targets of all jumps unknown. -/
def clearAll (ls : List Line) : List Line := ls.map (·.withTarget targetUnknown)

theorem clearTargets_textOf (ls : List Line) (count : Nat) (h : ls.length ≤ count) :
    clearTargets count (textOf ls) = .ok (textOf (clearAll ls)) := by
  induction ls generalizing count with
  | nil => cases count <;> rfl
  | cons l ls ih =>
    cases count with
    | zero => simp at h
    | succ count =>
      have hsize := (l.withTarget targetUnknown).lineSize_append (textOf ls)
      have hdrop : ((l.withTarget targetUnknown).bytes ++ textOf ls).drop l.size = textOf ls := by
        rw [← l.size_withTarget targetUnknown]
        exact drop_left
      have htake : ((l.withTarget targetUnknown).bytes ++ textOf ls).take l.size
          = (l.withTarget targetUnknown).bytes := by
        rw [← l.size_withTarget targetUnknown]
        exact take_left
      rw [Line.size_withTarget] at hsize
      rw [clearTargets]
      · simp only [textOf_cons, Line.read?_append]
        by_cases hc : l.header.cached = true
        · have hwrite := writeTarget_append [] (textOf ls) targetUnknown hc
          simp only [nil_append, length_nil] at hwrite
          simp only [hc, if_true, hwrite, bind, Except.bind, hsize, hdrop, htake,
            ih count (by simpa using h)]
          rfl
        · rw [Line.withTarget_of_not_cached _ (by simpa using hc)] at hsize hdrop htake
          simp only [hc, Bool.false_eq_true, if_false, bind, Except.bind, pure, Except.pure, hsize,
            hdrop, htake, ih count (by simpa using h), clearAll, map_cons, textOf_cons]
          rw [Line.withTarget_of_not_cached _ (by simpa using hc)]
      · exact textOf_cons_ne_nil l ls

/-! ## Labels -/

namespace Line

/-- The entry of the label table that the line makes, at an offset of a program. -/
def labelEntry (program pc : Nat) (l : Line) : List Label :=
  if l.isEnd then [⟨none, program, pc⟩]
  else if l.header.command = .lbl && l.header.kind = .text then
    [⟨some l.instr.operand.text, program, pc⟩]
  else []

theorem labelName_append (rest behind : Bytes) (hc : l.header.command = .lbl)
    (hk : l.header.kind = .text) :
    labelName (l.bytes ++ rest) behind = .ok l.instr.operand.text := by
  obtain ⟨h, used, hr, -, hu, hn, -⟩ := lineSize_eq_ok_iff.1 l.exact
  obtain rfl : h = l.header := Option.some.inj (hr.symm.trans l.read?_bytes)
  have hcached : l.header.cached = false := by
    simp [Header.cached, hasJumpCache, hc, hk]
    decide
  have hstart : l.header.operandStart = 2 := by simp [Header.operandStart, hcached, Header.size]
  have hinstr : l.instr.operand.text = (readOperand .text (l.bytes.drop 2)).text := by
    have hne : l.header.command ≠ .number := by
      rw [hc]
      decide
    simp [instr, Header.instrOf, hne, Header.operandOf, hcached, hstart, hk]
  have hle := l.header.le_sizeWith used l.bytes
  rw [hk, hstart] at hu
  rw [hstart, ← hn] at hle
  obtain ⟨a, b, n, text, hb⟩ : ∃ a b n text, l.bytes = a :: b :: n :: text := by
    rcases hb : l.bytes with _ | ⟨a, _ | ⟨b, _ | ⟨n, text⟩⟩⟩
    · simp [hb, operandSize] at hu
    · simp [hb, operandSize] at hu
    · simp [hb, operandSize] at hu
    · exact ⟨a, b, n, text, rfl⟩
  rw [hb] at hu hle hinstr
  simp only [operandSize, drop_succ_cons, drop_zero, Except.ok.injEq] at hu
  simp only [length_cons] at hle
  have hlen : ¬ (a :: b :: n :: text ++ rest ++ behind).length < 3 + n.toNat := by
    simp only [length_append, length_cons]
    omega
  simp only [hb, labelName, cons_append, getElem?_cons_succ, getElem?_cons_zero]
  rw [if_neg (by simpa using hlen), hinstr]
  simp only [readOperand, drop_succ_cons, drop_zero, headD_cons, tail_cons, Except.ok.injEq]
  rw [append_assoc, take_append_of_le_length (by omega)]

end Line

/-- The label table of a list of lines, the first of which stands at an offset. -/
def labelsOf (program : Nat) : Nat → List Line → List Label
  | _, [] => []
  | pc, l :: ls => l.labelEntry program pc ++ labelsOf program (pc + l.size) ls

theorem scanLabels_textOf (program : Nat) (behind : Bytes) (ls : List Line) (count pc : Nat)
    (h : ls.length ≤ count) :
    scanLabels program behind count pc (textOf ls) = .ok (labelsOf program pc ls) := by
  induction ls generalizing count pc with
  | nil => cases count <;> rfl
  | cons l ls ih =>
    cases count with
    | zero => simp at h
    | succ count =>
      have hdrop : (l.bytes ++ textOf ls).drop l.size = textOf ls := drop_left
      rw [scanLabels]
      · simp only [textOf_cons, Line.read?_append, Line.lineSize_append, hdrop,
          ih count _ (by simpa using h), labelsOf, Line.labelEntry, Line.isEnd_iff]
        by_cases he : l.header.command = .endLine
        · simp only [he, if_true]
          rfl
        · by_cases hl : (decide (l.header.command = .lbl) && decide (l.header.kind = .text)) = true
          · have hl' := hl
            simp only [Bool.and_eq_true, decide_eq_true_eq] at hl'
            simp only [he, hl, if_true, if_false, Line.labelName_append _ _ hl'.1 hl'.2]
            rfl
          · simp only [he, hl, if_false]
            rfl
      · exact textOf_cons_ne_nil l ls

/-! ## Line numbers -/

/-- The number of bytes of the first `count` lines, those in front of the END at most. -/
def passed : Nat → List Line → Nat
  | 0, _ | _, [] => 0
  | count + 1, l :: ls => if l.isEnd then 0 else l.size + passed count ls

theorem passLines_textOf (ls : List Line) (hend : ∃ l ∈ ls, l.isEnd = true)
    (bound count here : Nat) (h : ls.length ≤ bound) :
    passLines bound count here (textOf ls) = .ok (here + passed count ls) := by
  induction ls generalizing bound count here with
  | nil => simp at hend
  | cons l ls ih =>
    cases bound with
    | zero => simp at h
    | succ bound =>
      cases count with
      | zero => simp [passLines, passed]
      | succ count =>
        have hdrop : (l.bytes ++ textOf ls).drop l.size = textOf ls := drop_left
        simp only [passLines, textOf_cons, Line.read?_append, Line.lineSize_append, passed,
          Line.isEnd_iff, hdrop]
        split
        · rfl
        · next he =>
          have hmore : ∃ l' ∈ ls, l'.isEnd = true := by
            obtain ⟨l', hmem, hl'⟩ := hend
            rcases mem_cons.1 hmem with rfl | hmem
            · exact absurd (Line.isEnd_iff.1 hl') he
            · exact ⟨l', hmem, hl'⟩
          rw [ih hmore bound count _ (by simpa using h), Nat.add_assoc]

/-- Line numbers count from one; zero stands for the place in front of the first line. -/
theorem lineOffset_textOf (ls : List Line) (hend : ∃ l ∈ ls, l.isEnd = true) (line : Int) :
    lineOffset (textOf ls) line
      = .ok (if line = 0 then -1 else (passed (line - 1).toNat ls : Int)) := by
  have hlen := length_le_length_textOf ls
  unfold lineOffset
  split
  · rfl
  · rw [passLines_textOf ls hend _ _ _ (by omega), Nat.zero_add]
    rfl

theorem passed_endLine (ls : List Line) (h : ∀ l ∈ ls, l.isEnd = false) (count : Nat) :
    passed count (ls ++ [Line.endLine]) = (textOf (ls.take count)).length := by
  induction ls generalizing count with
  | nil => cases count <;> simp [passed]
  | cons l ls ih =>
    cases count with
    | zero => simp [passed]
    | succ count =>
      simp [passed, h l mem_cons_self, ih (fun m hm => h m (mem_cons_of_mem _ hm)), Line.size]

/-- How many of the lines start in front of an offset, the first of them standing at zero. -/
def linesBelow (pc : Int) : List Line → Nat
  | [] => 0
  | l :: ls => if pc ≤ 0 then 0 else linesBelow (pc - l.size) ls + 1

theorem countLines_textOf (ls : List Line) (h : ∀ l ∈ ls, l.isEnd = false) (pc : Int)
    {n : Nat} (hn : ls.length < n) (here line : Nat) :
    countLines pc n here line (textOf (ls ++ [Line.endLine]))
      = .ok (line + linesBelow (pc - here) ls) := by
  obtain ⟨n, rfl⟩ := Nat.exists_eq_succ_of_ne_zero (Nat.ne_zero_of_lt hn)
  induction ls generalizing n here line with
  | nil =>
    rw [nil_append, countLines]
    split <;> rfl
  | cons l ls ih =>
    obtain ⟨n, rfl⟩ := Nat.exists_eq_succ_of_ne_zero (n := n) (by simp at hn; omega)
    have hl : ¬ l.header.command = .endLine := by
      rw [← Line.isEnd_iff, h l mem_cons_self]
      exact Bool.false_ne_true
    have hmore := ih (fun m hm => h m (mem_cons_of_mem _ hm)) (here + l.size) (line + 1) n
      (by simpa using hn)
    have hdrop : (l.bytes ++ textOf (ls ++ [Line.endLine])).drop l.size
        = textOf (ls ++ [Line.endLine]) := drop_left
    rw [cons_append, textOf_cons, countLines, linesBelow]
    by_cases hpc : pc ≤ here
    · rw [if_pos hpc, if_pos (by omega), Nat.add_zero]
    · rw [if_neg hpc, if_neg (by omega)]
      simp only [Line.read?_append, hl, if_false, Line.lineSize_append, hdrop]
      rw [hmore, Int.natCast_add, ← Int.sub_sub]
      congr 1
      omega

/-- The lines that start in front of an offset are those of a front if its last line does, and the
    line behind it does not. -/
theorem linesBelow_eq {pc : Int} (front back : List Line)
    (hlast : front = [] ∨ ((textOf front.dropLast).length : Int) < pc)
    (hnext : back = [] ∨ pc ≤ (textOf front).length) :
    linesBelow pc (front ++ back) = front.length := by
  induction front generalizing pc with
  | nil => cases back <;> simp_all [linesBelow]
  | cons l front ih =>
    have hlow : ¬ pc ≤ 0 ∧ (front = [] ∨ ((textOf front.dropLast).length : Int) < pc - l.size) := by
      cases front with
      | nil => simpa using hlast
      | cons m front =>
        simp only [dropLast_cons_cons, textOf_cons, length_append, Line.size, reduceCtorEq,
          false_or] at *
        omega
    rw [cons_append, linesBelow, if_neg hlow.1, ih hlow.2, length_cons]
    refine hnext.imp_right fun hnext => ?_
    rw [textOf_cons, length_append] at hnext
    rw [Line.size]
    omega

theorem last_starts_below {front : List Line} {pc : Int} (h : (textOf front).length ≤ pc) :
    front = [] ∨ ((textOf front.dropLast).length : Int) < pc := by
  rcases eq_nil_or_concat front with rfl | ⟨front, l, rfl⟩
  · exact .inl rfl
  · have hpos := l.two_le_size
    simp only [concat_eq_append, dropLast_concat, textOf_append, length_append, textOf_cons,
      Line.size, textOf_nil, append_nil] at *
    omega

theorem linesBelow_front (front back : List Line) :
    linesBelow (textOf front).length (front ++ back) = front.length :=
  linesBelow_eq front back (last_starts_below (Int.le_refl _)) (.inr (Int.le_refl _))

/-! ## Lists of lines with one more -/

section

variable {P : Line → Prop} {front back : List Line}

theorem forall_mem_put (hl : P l) (h : ∀ m ∈ front ++ back, P m) :
    ∀ m ∈ front ++ l :: back, P m := by
  simp only [forall_mem_append, forall_mem_cons] at h ⊢
  exact ⟨h.1, hl, h.2⟩

theorem forall_mem_cut (h : ∀ m ∈ front ++ l :: back, P m) : ∀ m ∈ front ++ back, P m := by
  simp only [forall_mem_append, forall_mem_cons] at h ⊢
  exact ⟨h.1, h.2.2⟩

end

/-! ## Lines that differ in targets only -/

@[simp]
theorem clearAll_nil : clearAll [] = [] := rfl

@[simp]
theorem clearAll_cons (l : Line) (ls : List Line) :
    clearAll (l :: ls) = l.withTarget targetUnknown :: clearAll ls := rfl

@[simp]
theorem clearAll_append (ls ms : List Line) : clearAll (ls ++ ms) = clearAll ls ++ clearAll ms := by
  simp [clearAll]

@[simp]
theorem clearAll_clearAll (ls : List Line) : clearAll (clearAll ls) = clearAll ls := by
  simp [clearAll]

@[simp]
theorem length_clearAll (ls : List Line) : (clearAll ls).length = ls.length := by
  simp [clearAll]

@[simp]
theorem length_textOf_clearAll (ls : List Line) :
    (textOf (clearAll ls)).length = (textOf ls).length := by
  induction ls with
  | nil => rfl
  | cons l ls ih =>
    have := l.size_withTarget targetUnknown
    simp only [Line.size] at this
    simp only [clearAll_cons, textOf_cons, length_append, this, ih]

theorem clearAll_of_unknown (h : ∀ l ∈ ls, l.target = targetUnknown) : clearAll ls = ls := by
  refine (map_congr_left fun l hl => ?_).trans (map_id ls)
  rw [← h l hl, Line.withTarget_target]
  rfl

@[simp]
theorem clearAll_endLine : clearAll [Line.endLine] = [Line.endLine] := by
  simp only [clearAll_cons, clearAll_nil]
  rw [Line.withTarget_of_not_cached targetUnknown (by decide)]

@[simp]
theorem passed_clearAll (count : Nat) (ls : List Line) :
    passed count (clearAll ls) = passed count ls := by
  induction ls generalizing count with
  | nil => rfl
  | cons l ls ih => cases count <;> simp [passed, ih]

end Keystroke
