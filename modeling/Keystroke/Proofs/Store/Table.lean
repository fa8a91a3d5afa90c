import Keystroke.Proofs.Program.RoundTrip
import Keystroke.Proofs.Store.Basic

set_option autoImplicit false

/-! # Lines and labels of programs

A program is a list of lines and an END (`Program.Holds`). The label table of programs is that of
their lines (`tableOf`): the targets of jumps do not matter to it, and it shifts where a line that
is no label is put in or taken out. -/

namespace Keystroke

open List

variable {e : Label} {lss : List (List Line)} {pc : Int} {line : Instr} {l : Line} {s : Store}
  {p q : Program} {ls front back : List Line} {ps qs pre post : List Program} {ref : ProgramRef}

/-! ## Programs and their lines -/

namespace Program

/-- The program consists of these lines and its END. -/
structure Holds (p : Program) (ls : List Line) : Prop where
  text : p.buffer.text = textOf (ls ++ [Line.endLine])
  notEnd : ∀ l ∈ ls, l.isEnd = false

theorem Holds.textEq (h : p.Holds ls) : p.buffer.text = textOf ls ++ endBytes := by
  simpa using h.text

/-- The text around one of the lines. -/
theorem Holds.textAt (h : p.Holds (front ++ l :: back)) :
    p.buffer.text = textOf front ++ (l.bytes ++ textOf (back ++ [Line.endLine])) := by
  simpa using h.text

/-- The text around the END. -/
theorem Holds.textEnd (h : p.Holds ls) :
    p.buffer.text = textOf ls ++ (Line.endLine.bytes ++ []) := by
  simpa using h.text

theorem Holds.length (h : p.Holds ls) : p.buffer.text.length = (textOf ls).length + 2 := by
  rw [h.textEq, length_append]
  rfl

theorem Holds.two_le_length (h : p.Holds ls) : endBytes.length ≤ p.buffer.text.length := by
  rw [h.length]
  exact Nat.le_add_left 2 _

theorem Holds.unique {ms : List Line} (h : p.Holds ls) (h' : p.Holds ms) : ls = ms :=
  append_cancel_right (textOf_inj (h.text.symm.trans h'.text))

theorem holds_clearAll (flag : Bool) (h : ∀ l ∈ ls, l.isEnd = false) :
    (p.withText (textOf (clearAll ls ++ [Line.endLine])) flag).Holds (clearAll ls) := by
  refine ⟨rfl, ?_⟩
  intro l hl
  obtain ⟨l', hl', rfl⟩ := mem_map.1 hl
  rw [Line.isEnd_withTarget]
  exact h l' hl'

theorem Holds.withTarget (h : p.Holds (front ++ l :: back)) (t : Int32) (flag : Bool) :
    (p.withText (textOf (front ++ l.withTarget t :: back ++ [Line.endLine])) flag).Holds
      (front ++ l.withTarget t :: back) := by
  refine ⟨rfl, forall_mem_put ?_ (forall_mem_cut h.notEnd)⟩
  rw [Line.isEnd_withTarget]
  exact h.notEnd l (by simp)

theorem holds_nil (h : p.buffer.text = endBytes) : p.Holds [] := ⟨by simpa using h, by simp⟩

/-- What is left of a program after its lines were changed: outside a bulk load targets are
    forgotten, unless they were unknown before. -/
structure Settled (loading : Nat) (ls : List Line) (p p' : Program) : Prop where
  holds : p'.Holds (if loading = 0 ∧ p.cachesClear = false then clearAll ls else ls)
  clear : p'.cachesClear = (p.cachesClear || loading == 0)
  refs : p'.refs = p.refs
  generated : p'.generated = p.generated

end Program

/-! ## Lines that instructions become -/

/-- The bytes that a line takes in a program; what cannot be stored counts as its header. -/
def Instr.size (i : Instr) : Nat :=
  match i.encode with
  | .ok bytes => bytes.length
  | .error _ => Header.size

theorem Instr.two_le_size (i : Instr) : 2 ≤ i.size := by
  unfold size
  split
  · next bytes h =>
    obtain ⟨-, operand, -, rfl⟩ := encode_eq_ok_iff.1 h
    simp [Header.length_pack]
  · exact Nat.le_refl _

/-- The line is what the instruction becomes in a program. -/
structure Line.Writes (l : Line) (i : Instr) : Prop where
  code : i.encode = .ok l.bytes
  header : l.header = i.storedHeader
  instr : l.instr = i.readBack

theorem Instr.exists_writes {i : Instr} {code : Bytes} (hcode : i.encode = .ok code)
    (hz : i.command = .number → 0 ∉ i.numberText) : ∃ l : Line, l.bytes = code ∧ l.Writes i := by
  obtain ⟨l, rfl, hheader, hinstr⟩ := exists_line_of_encode hcode hz
  exact ⟨l, rfl, hcode, hheader, hinstr⟩

namespace Line.Writes

variable {i : Instr}

theorem command (h : l.Writes i) : l.header.command = i.command := by
  rw [h.header]
  rfl

theorem size_eq (h : l.Writes i) : l.size = i.size := by
  rw [Instr.size, h.code, Line.size]

theorem isEnd_eq (h : l.Writes i) (hi : i.command ≠ .endLine) : l.isEnd = false := by
  rw [← Bool.not_eq_true, Line.isEnd_iff, h.command]
  exact hi

theorem target (h : l.Writes i) : l.target = targetUnknown := by
  rw [Line.target, h.instr, Instr.target_readBack]

end Line.Writes

namespace Instr

theorem isCrash_of_operandBytes {a : Operand} {fault : InstrFault}
    (h : operandBytes a = .error fault) : (Error.ofInstrFault fault).isCrash = false := by
  -- every refusal is about the operand's number, its text or its kind
  unfold operandBytes at h
  repeat' split at h
  all_goals cases h
  all_goals rfl

theorem isCrash_misread (cause : Misread) (pc : Int) :
    (Error.ofInstrFault (cause.at_ pc)).isCrash = false := by
  cases cause <;> rfl

theorem isCrash_of_encode {i : Instr} {fault : InstrFault} (h : i.encode = .error fault) :
    (Error.ofInstrFault fault).isCrash = false := by
  unfold encode at h
  simp only at h
  split at h
  · cases h
    rfl
  · cases hoperand : operandBytes i.normalize.operand with
    | ok bytes =>
      rw [hoperand] at h
      cases h
    | error fault' =>
      rw [hoperand] at h
      cases h
      exact isCrash_of_operandBytes hoperand

end Instr

/-! ## The labels of lines -/

section Lines

variable {n pc : Nat} {ls : List Line}

theorem labelsOf_append (n pc : Nat) (ls ms : List Line) :
    labelsOf n pc (ls ++ ms) = labelsOf n pc ls ++ labelsOf n (pc + (textOf ls).length) ms := by
  induction ls generalizing pc with
  | nil => simp [labelsOf]
  | cons l ls ih =>
    simp only [cons_append, labelsOf, ih, append_assoc, textOf_cons, length_append,
      Line.size, Nat.add_assoc]

theorem Line.labelEntry_withTarget (l : Line) (t : Int32) (n pc : Nat) :
    (l.withTarget t).labelEntry n pc = l.labelEntry n pc := by
  by_cases hc : l.header.cached = true
  · have hlbl : l.header.command ≠ .lbl := by
      intro h
      have hno : hasJumpCache .lbl l.header.kind = false := by cases l.header.kind <;> rfl
      rw [Header.cached, h, hno] at hc
      exact absurd hc (by simp)
    simp [labelEntry, hlbl]
  · rw [withTarget_of_not_cached t (by simpa using hc)]

@[simp]
theorem labelsOf_clearAll (n pc : Nat) (ls : List Line) :
    labelsOf n pc (clearAll ls) = labelsOf n pc ls := by
  induction ls generalizing pc with
  | nil => rfl
  | cons l ls ih => simp only [clearAll_cons, labelsOf, Line.labelEntry_withTarget, ih,
      Line.size_withTarget]

theorem labelsOf_add (n pc d : Nat) (ls : List Line) :
    labelsOf n (pc + d) ls = (labelsOf n pc ls).map (Label.shift d) := by
  induction ls generalizing pc with
  | nil => rfl
  | cons l ls ih =>
    have hentry : l.labelEntry n (pc + d) = (l.labelEntry n pc).map (Label.shift d) := by
      unfold Line.labelEntry
      split
      · simp [Label.shift]
      · split <;> simp [Label.shift]
    rw [labelsOf, labelsOf, map_append, hentry, ← ih, Nat.add_right_comm]

theorem Line.eq_of_mem_labelEntry (h : e ∈ l.labelEntry n pc) : e.program = n ∧ e.pc = pc := by
  unfold labelEntry at h
  split at h
  · simp_all
  · split at h <;> simp_all

theorem mem_labelsOf :
    e ∈ labelsOf n pc ls ↔ ∃ front l back, ls = front ++ l :: back ∧
      e ∈ l.labelEntry n (pc + (textOf front).length) := by
  induction ls generalizing pc with
  | nil => simp [labelsOf]
  | cons l ls ih =>
    rw [labelsOf, mem_append, ih]
    constructor
    · rintro (h | ⟨front, l', back, rfl, h⟩)
      · exact ⟨[], l, ls, rfl, by simpa using h⟩
      · exact ⟨l :: front, l', back, rfl, by simpa [Line.size, Nat.add_assoc] using h⟩
    · rintro ⟨front, l', back, heq, h⟩
      cases front with
      | nil =>
        obtain ⟨rfl, rfl⟩ := cons.inj heq
        exact Or.inl (by simpa using h)
      | cons l'' front =>
        obtain ⟨rfl, rfl⟩ := cons.inj heq
        exact Or.inr ⟨front, l', back, rfl, by simpa [Line.size, Nat.add_assoc] using h⟩

theorem bounds_of_mem_labelsOf (h : e ∈ labelsOf n pc ls) :
    e.program = n ∧ (pc : Int) ≤ e.pc ∧ e.pc < (pc + (textOf ls).length : Nat) := by
  obtain ⟨front, l, back, rfl, he⟩ := mem_labelsOf.1 h
  obtain ⟨hn, hpc⟩ := Line.eq_of_mem_labelEntry he
  have hsize := l.two_le_size
  simp only [Line.size] at hsize
  simp only [textOf_append, textOf_cons, length_append]
  exact ⟨hn, by omega, by omega⟩

theorem shiftFrom_labelsOf (front back : List Line) (delta : Int) :
    (labelsOf n 0 (front ++ back)).map (Label.shiftFrom n (textOf front).length delta)
      = labelsOf n 0 front ++ (labelsOf n (textOf front).length back).map (Label.shift delta) := by
  rw [labelsOf_append, map_append, Nat.zero_add]
  congr 1
  · refine (map_congr_left fun e he => ?_).trans (map_id _)
    obtain ⟨-, -, hlt⟩ := bounds_of_mem_labelsOf he
    exact if_neg (by simp; omega)
  · refine map_congr_left fun e he => ?_
    obtain ⟨hn, hle, -⟩ := bounds_of_mem_labelsOf he
    exact if_pos (by simp [hn, hle])

/-- Labels move by `delta` from an offset on when the second lines replace the first. -/
def Shifts (pc delta : Int) (ls ms : List Line) : Prop :=
  ∀ n : Nat, (labelsOf n 0 (ls ++ [Line.endLine])).map (Label.shiftFrom n pc delta)
    = labelsOf n 0 (ms ++ [Line.endLine])

theorem shifts_insert (hl : ∀ n pc, l.labelEntry n pc = []) :
    Shifts (textOf front).length l.size (front ++ back) (front ++ l :: back) := by
  intro n
  rw [append_assoc, append_assoc, cons_append, labelsOf_append n 0 front (l :: _),
    labelsOf, hl, shiftFrom_labelsOf, nil_append, Nat.zero_add, labelsOf_add]

theorem shifts_delete (hl : ∀ n pc, l.labelEntry n pc = []) :
    Shifts (textOf front).length (-l.size) (front ++ l :: back) (front ++ back) := by
  intro n
  have hback (e : Label) : (e.shift l.size).shift (-l.size) = e := by simp [Label.shift]
  rw [append_assoc, append_assoc, cons_append, shiftFrom_labelsOf,
    labelsOf_append n 0 front, labelsOf, hl, nil_append, Nat.zero_add, labelsOf_add,
    map_map]
  congr 1
  exact (map_congr_left fun e _ => hback e).trans (map_id _)

end Lines

/-! ## The table of programs -/

/-- The label table of programs by their lines, the first of which has the given number. -/
def tableOf : Nat → List (List Line) → List Label
  | _, [] => []
  | n, ls :: lss => labelsOf n 0 (ls ++ [Line.endLine]) ++ tableOf (n + 1) lss

theorem tableOf_append (n : Nat) (lss mss : List (List Line)) :
    tableOf n (lss ++ mss) = tableOf n lss ++ tableOf (n + lss.length) mss := by
  induction lss generalizing n with
  | nil => simp [tableOf]
  | cons ls lss ih =>
    simp only [cons_append, tableOf, ih, append_assoc, length_cons]
    rw [Nat.add_right_comm n 1, Nat.add_assoc n]

theorem mem_tableOf {n : Nat} :
    e ∈ tableOf n lss ↔ n ≤ e.program ∧ ∃ ls, lss[e.program - n]? = some ls ∧
      e ∈ labelsOf e.program 0 (ls ++ [Line.endLine]) := by
  induction lss generalizing n with
  | nil => simp [tableOf]
  | cons ls lss ih =>
    rw [tableOf, mem_append, ih]
    constructor
    · rintro (h | ⟨hle, ms, hms, h⟩)
      · obtain ⟨hn, -⟩ := bounds_of_mem_labelsOf h
        exact ⟨hn.ge, ls, by simp [hn], by rwa [hn]⟩
      · refine ⟨by omega, ms, ?_, h⟩
        rw [show e.program - n = e.program - (n + 1) + 1 by omega]
        exact hms
    · rintro ⟨hle, ms, hms, h⟩
      rcases Nat.eq_or_lt_of_le hle with hn | hlt
      · rw [← hn, Nat.sub_self] at hms
        obtain rfl := Option.some.inj hms
        exact Or.inl (by rwa [hn])
      · rw [show e.program - n = e.program - (n + 1) + 1 by omega] at hms
        exact Or.inr ⟨hlt, ms, hms, h⟩

/-- The table in the order of memory. -/
def Label.Before (e f : Label) : Prop :=
  e.program < f.program ∨ e.program = f.program ∧ e.pc < f.pc

theorem Label.Before.program_le {f : Label} (h : e.Before f) : e.program ≤ f.program :=
  h.elim Nat.le_of_lt fun h => h.1.le

theorem pairwise_labelsOf (n pc : Nat) (ls : List Line) :
    (labelsOf n pc ls).Pairwise Label.Before := by
  induction ls generalizing pc with
  | nil => exact .nil
  | cons l ls ih =>
    have hentry : (l.labelEntry n pc).Pairwise Label.Before := by
      unfold Line.labelEntry
      split
      · exact pairwise_singleton _ _
      · split
        · exact pairwise_singleton _ _
        · exact .nil
    refine pairwise_append.2 ⟨hentry, ih _, fun e he f hf => Or.inr ?_⟩
    obtain ⟨hen, hepc⟩ := Line.eq_of_mem_labelEntry he
    obtain ⟨hfn, hfpc, -⟩ := bounds_of_mem_labelsOf hf
    have hsize := l.two_le_size
    exact ⟨by rw [hen, hfn], by omega⟩

theorem pairwise_tableOf (n : Nat) (lss : List (List Line)) :
    (tableOf n lss).Pairwise Label.Before := by
  induction lss generalizing n with
  | nil => exact .nil
  | cons ls lss ih =>
    refine pairwise_append.2 ⟨pairwise_labelsOf _ _ _, ih _, fun e he f hf => Or.inl ?_⟩
    obtain ⟨hen, -⟩ := bounds_of_mem_labelsOf he
    obtain ⟨hfn, -⟩ := mem_tableOf.1 hf
    omega

/-- In a table in the order of memory, the end of the scan skips nothing. -/
theorem shiftTable_eq_map {es : List Label} (i pc delta : Int) (h : es.Pairwise Label.Before) :
    shiftTable i pc delta es = es.map (Label.shiftFrom i pc delta) := by
  induction h with
  | nil => rfl
  | @cons e es hbefore _ ih =>
    rw [shiftTable]
    split
    · next hlt =>
      refine ((map_congr_left fun f hf => ?_).trans (map_id _)).symm
      have hle : e.program ≤ f.program := by
        rcases mem_cons.1 hf with rfl | hf
        · exact Nat.le_refl _
        · exact (hbefore f hf).program_le
      exact if_neg (by simp; omega)
    · rw [ih, map_cons]

theorem labelTable_of_holds {ps : List Program} (h : List.Forall₂ Program.Holds ps lss) (n : Nat) :
    labelTable n ps = .ok (tableOf n lss) := by
  induction h generalizing n with
  | nil => rfl
  | @cons p ls ps lss hp _ ih =>
    have hlen := length_le_length_textOf (ls ++ [Line.endLine])
    have hscan : p.buffer.labels n = .ok (labelsOf n 0 (ls ++ [Line.endLine])) := by
      rw [Buffer.labels, hp.text]
      exact scanLabels_textOf n _ _ _ 0 (by omega)
    rw [labelTable, hscan, ih (n + 1)]
    rfl

/-! ## Tables that are up to date -/

namespace Store

/-- Programs that are lists of lines, so that their labels can be read. -/
def Readable (ps : List Program) : Prop := ∀ p ∈ ps, ∃ ls, p.Holds ls

theorem readable_append : Readable (ps ++ qs) ↔ Readable ps ∧ Readable qs := by
  simp only [Readable, mem_append]
  exact ⟨fun h => ⟨fun p hp => h p (Or.inl hp), fun p hp => h p (Or.inr hp)⟩,
    fun h p hp => hp.elim (h.1 p) (h.2 p)⟩

theorem readable_cons : Readable (p :: ps) ↔ (∃ ls, p.Holds ls) ∧ Readable ps := by
  simp [Readable]

theorem Readable.setProgram (h : Readable s.programs) (hl : p.Holds ls) :
    Readable (s.setProgram ref p).programs := by
  cases ref with
  | user i =>
    intro q hq
    rcases mem_or_eq_of_mem_set hq with hq | rfl
    · exact h q hq
    · exact ⟨ls, hl⟩
  | _ => exact h

theorem exists_forall₂ {α β : Type} {R : α → β → Prop} {xs : List α} (h : ∀ x ∈ xs, ∃ y, R x y) :
    ∃ ys, List.Forall₂ R xs ys := by
  induction xs with
  | nil => exact ⟨[], .nil⟩
  | cons x xs ih =>
    obtain ⟨⟨y, hy⟩, hrest⟩ := forall_mem_cons.1 h
    obtain ⟨ys, hys⟩ := ih hrest
    exact ⟨y :: ys, .cons hy hys⟩

/-- All programs are lists of lines, those in the slots too. -/
structure Legible (s : Store) : Prop where
  programs : Readable s.programs
  slots : ∀ p, some p ∈ s.equations → ∃ ls, p.Holds ls

theorem Legible.program? (h : s.Legible) (hp : s.program? ref = some p) : ∃ ls, p.Holds ls := by
  cases ref with
  | user i => exact h.programs p (mem_of_getElem? (program?_user_eq_some_iff.1 hp).2)
  | equation i => exact h.slots p (mem_of_getElem? (program?_equation_eq_some_iff.1 hp).2)
  | none | solver | integrator => cases hp

theorem Legible.of_agree {t : Store} (h : s.Legible) (hs : s.Agree t) : t.Legible :=
  ⟨hs.programs ▸ h.programs, hs.equations ▸ h.slots⟩

theorem Legible.setProgram (h : s.Legible) (hp : s.program? ref = some p)
    (hq : ∃ ls, q.Holds ls) : (s.setProgram ref q).Legible := by
  cases ref with
  | user i =>
    refine ⟨fun r hr => ?_, h.slots⟩
    rcases mem_or_eq_of_mem_set hr with hr | rfl
    · exact h.programs r hr
    · exact hq
  | equation i =>
    refine ⟨h.programs, fun r hr => ?_⟩
    rcases mem_or_eq_of_mem_set hr with hr | hr
    · exact h.slots r hr
    · obtain rfl := Option.some.inj hr
      exact hq
  | none | solver | integrator => cases hp

theorem Empty.exists_holds {generated : Bool} (h : Empty generated p) : ∃ ls, p.Holds ls :=
  ⟨[], Program.holds_nil h.text⟩

/-- The user's programs hold lines, and the label table is the table of these lines. -/
structure Listed (s : Store) : Prop where
  lines : ∃ lss, List.Forall₂ Program.Holds s.programs lss ∧ s.labels = tableOf 0 lss

theorem Listed.of_same {t : Store} (h : s.Listed) (hp : t.programs = s.programs)
    (hl : t.labels = s.labels) : t.Listed := by
  obtain ⟨lss, hlss, htable⟩ := h.lines
  exact ⟨lss, by rw [hp]; exact hlss, by rw [hl, htable]⟩

theorem exists_left_of_mem {α β : Type} {R : α → β → Prop} {xs : List α} {ys : List β} {y : β}
    (h : List.Forall₂ R xs ys) (hy : y ∈ ys) : ∃ x ∈ xs, R x y := by
  induction h with
  | nil => exact absurd hy (by simp)
  | cons hxy _ ih =>
    rcases mem_cons.1 hy with rfl | hy
    · exact ⟨_, by simp, hxy⟩
    · obtain ⟨x, hx, hr⟩ := ih hy
      exact ⟨x, by simp [hx], hr⟩

theorem Listed.readable (hs : s.Listed) : Readable s.programs := by
  obtain ⟨lss, hlss, -⟩ := hs.lines
  intro p hp
  obtain ⟨ls, -, hls⟩ := exists_left_of_mem hlss.flip hp
  exact ⟨ls, hls⟩

theorem Listed.labels_eq (h : s.Listed) (hlss : List.Forall₂ Program.Holds s.programs lss) :
    s.labels = tableOf 0 lss := by
  obtain ⟨mss, hmss, hlabels⟩ := h.lines
  rw [hlabels]
  exact Except.ok.inj ((labelTable_of_holds hmss 0).symm.trans (labelTable_of_holds hlss 0))

theorem exists_programs_split {i : Int} (hp : s.program? (.user i) = some p) :
    ∃ pre post, s.programs = pre ++ p :: post ∧ i = pre.length := by
  obtain ⟨h0, hi⟩ := program?_user_eq_some_iff.1 hp
  obtain ⟨hlt, hget⟩ := List.getElem?_eq_some_iff.1 hi
  refine ⟨s.programs.take i.toNat, s.programs.drop (i.toNat + 1), ?_, ?_⟩
  · rw [← hget, ← drop_eq_getElem_cons hlt, take_append_drop]
  · rw [length_take]
    omega

theorem program?_of_split (h : s.programs = pre ++ p :: post) :
    s.program? (.user pre.length) = some p := by
  refine program?_user_eq_some_iff.2 ⟨by omega, ?_⟩
  simp [h]

theorem setProgram_of_split (q : Program) (h : s.programs = pre ++ p :: post) :
    s.setProgram (.user pre.length) q = { s with programs := pre ++ q :: post } := by
  simp [setProgram, h]

theorem lineAt_of_holds {pc : Int} (hp : s.program? ref = some p) (hl : p.Holds ls)
    (hpc : pc ≠ -1) : s.lineAt ref pc = .ok (linesBelow pc ls + 1) := by
  have hlen := length_le_length_textOf ls
  have hcount := countLines_textOf ls hl.notEnd pc (n := p.buffer.text.length + 1)
    (by rw [hl.length]; omega) 0 1
  rw [← hl.text, Int.natCast_zero, Int.sub_zero] at hcount
  simp only [lineAt, if_neg hpc, hp, hcount, Nat.add_comm]

theorem rebuildLabels_of_readable (h : Readable s.programs) :
    ∃ labels, rebuildLabels s = .ok () { s with labels := labels } ∧
      Listed { s with labels := labels } := by
  obtain ⟨lss, hlss⟩ := exists_forall₂ h
  refine ⟨tableOf 0 lss, ?_, lss, hlss, rfl⟩
  unfold rebuildLabels
  rw [Operation.get_bind, labelTable_of_holds hlss, Operation.bind_ok (Edit.ofExcept_ok _)]
  rfl

theorem exists_lines_split (h : List.Forall₂ Program.Holds (pre ++ p :: post) lss) :
    ∃ lpre ls lpost, lss = lpre ++ ls :: lpost ∧ List.Forall₂ Program.Holds pre lpre ∧
      p.Holds ls ∧ List.Forall₂ Program.Holds post lpost := by
  induction pre generalizing lss with
  | nil =>
    obtain ⟨ls, lpost, hls, hpost, rfl⟩ := forall₂_cons_left_iff.1 h
    exact ⟨[], ls, lpost, rfl, .nil, hls, hpost⟩
  | cons q pre ih =>
    obtain ⟨ms, lrest, hms, hrest, rfl⟩ := forall₂_cons_left_iff.1 h
    obtain ⟨lpre, ls, lpost, rfl, hpre, hls, hpost⟩ := ih hrest
    exact ⟨ms :: lpre, ls, lpost, rfl, .cons hms hpre, hls, hpost⟩

theorem tableOf_split (lpre lpost : List (List Line)) (ls : List Line) :
    tableOf 0 (lpre ++ ls :: lpost) = tableOf 0 lpre ++
      (labelsOf lpre.length 0 (ls ++ [Line.endLine]) ++ tableOf (lpre.length + 1) lpost) := by
  rw [tableOf_append, tableOf, Nat.zero_add]

theorem labelsOf_program_clearAll (n : Nat) (ls : List Line) :
    labelsOf n 0 (clearAll ls ++ [Line.endLine]) = labelsOf n 0 (ls ++ [Line.endLine]) := by
  rw [← clearAll_endLine, ← clearAll_append, labelsOf_clearAll, clearAll_endLine]

theorem shiftFrom_tableOf (lpre lpost : List (List Line)) (ls : List Line) (pc delta : Int) :
    (tableOf 0 (lpre ++ ls :: lpost)).map (Label.shiftFrom lpre.length pc delta)
      = tableOf 0 lpre ++ ((labelsOf lpre.length 0 (ls ++ [Line.endLine])).map
        (Label.shiftFrom lpre.length pc delta) ++ tableOf (lpre.length + 1) lpost) := by
  have hother (n : Nat) (lss : List (List Line))
      (h : ∀ e ∈ tableOf n lss, e.program ≠ lpre.length) :
      (tableOf n lss).map (Label.shiftFrom lpre.length pc delta) = tableOf n lss := by
    refine (map_congr_left fun e he => ?_).trans (map_id _)
    have hne := h e he
    exact if_neg (by simp [hne])
  rw [tableOf_split, map_append, map_append, hother, hother]
  · intro e he
    obtain ⟨hle, -⟩ := mem_tableOf.1 he
    omega
  · intro e he
    obtain ⟨-, ms, hms, -⟩ := mem_tableOf.1 he
    have hlt := (List.getElem?_eq_some_iff.1 hms).1
    omega

theorem Listed.clearAll (h : s.Listed) (hp : s.program? ref = some p) (hl : p.Holds ls)
    (hq : q.Holds (clearAll ls)) : (s.setProgram ref q).Listed := by
  cases ref with
  | user i =>
    obtain ⟨pre, post, hps, rfl⟩ := exists_programs_split hp
    obtain ⟨lss, hlss, htable⟩ := h.lines
    rw [hps] at hlss
    obtain ⟨lpre, ms, lpost, rfl, hpre, hms, hpost⟩ := exists_lines_split hlss
    obtain rfl := hl.unique hms
    rw [setProgram_of_split q hps]
    refine ⟨lpre ++ Keystroke.clearAll ls :: lpost, rel_append hpre (.cons hq hpost), ?_⟩
    rw [tableOf_split, labelsOf_program_clearAll, ← tableOf_split]
    exact htable
  | _ => exact ⟨h.lines⟩

theorem Listed.shift {old : List Line} {delta : Int} (h : s.Listed)
    (hps : s.programs = pre ++ p :: post) (hl : p.Holds old) (hq : q.Holds ls)
    (hshift : Shifts pc delta old ls) :
    Listed { s with
      programs := pre ++ q :: post
      labels := shiftTable pre.length pc delta s.labels } := by
  obtain ⟨lss, hlss, htable⟩ := h.lines
  rw [hps] at hlss
  obtain ⟨lpre, ms, lpost, rfl, hpre, hms, hpost⟩ := exists_lines_split hlss
  obtain rfl := hl.unique hms
  have hlength : pre.length = lpre.length := hpre.length_eq
  refine ⟨lpre ++ ls :: lpost, rel_append hpre (.cons hq hpost), ?_⟩
  rw [tableOf_split, ← hlength, ← hshift pre.length, htable,
    shiftTable_eq_map _ _ _ (pairwise_tableOf 0 _), hlength, shiftFrom_tableOf]

/-- A stored line that is neither an END nor a global label makes no entry. -/
theorem labelEntry_of_writes (hl : l.Writes line) (hend : l.isEnd = false)
    (hlabel : (line.command = .lbl && line.operand.kind = .text) = false) (n pc : Nat) :
    l.labelEntry n pc = [] := by
  have hno : (l.header.command = .lbl && l.header.kind = .text) = false := by
    by_cases hlbl : line.command = .lbl
    · have hne : line.command ≠ .number := by
        rw [hlbl]
        decide
      have hkind : line.operand.kind ≠ .text := by simpa [hlbl] using hlabel
      have hstored : l.header.kind = line.normalize.operand.kind := by
        rw [hl.header]
        rfl
      rw [Instr.normalize_of_ne_number hne] at hstored
      split at hstored <;> simp [hstored, hkind]
    · simp [hl.command, hlbl]
  simp only [Line.labelEntry, hend, hno, Bool.false_eq_true, if_false]

end Store

end Keystroke
