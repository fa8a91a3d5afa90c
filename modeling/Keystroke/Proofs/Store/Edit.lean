import Keystroke.Proofs.Store.Table

set_option autoImplicit false

/-! # Edits as edits of lines

What each operation of the store does to the lines of a program. A line is put in or taken out
where it should be, an END cuts a list of lines in two or joins two, and the targets of jumps are
forgotten when the lines have changed, at once or, in a bulk load, at its end. Operations fail only
where the statements here say so, and then they change no program. -/

namespace Keystroke

variable {line' : Instr} {place : Nat} {qs : List Program}

open Operation List

variable {p q : Program} {ls front back : List Line} {l : Line} {ps pre post : List Program}
  {line : Instr} {pc i : Int} {b : Buffer}

/-- The labels of all programs are read when such a line is put in. -/
def Instr.Relabels (i : Instr) : Prop :=
  i.command = .endLine ∨ i.command = .lbl ∧ i.operand.kind = .text

/-- More capacity can be asked for than a buffer can have, by the settings or for so many bytes. -/
def Options.Exceeded (o : Options) (n : Nat) : Prop :=
  (Store.maxCapacity : Int) < o.initialCapacity ∨ Store.maxCapacity < 2 * n

theorem Options.Exceeded.mono {o : Options} {m n : Nat} (h : o.Exceeded m) (hle : m ≤ n) :
    o.Exceeded n :=
  h.imp_right fun hm => by omega

namespace Store

variable {s : Store} {ref : ProgramRef}

theorem lines_of_holds (hp : s.program? ref = some p) (hl : p.Holds ls) :
    s.lines ref = .ok ((ls ++ [Line.endLine]).map Line.instr) := by
  have htext : s.text ref = .ok p.buffer.text := by rw [Store.text, hp]
  simp only [Store.lines, htext, bind, Except.bind, hl.text, decodeLines_textOf]
  rfl

/-! ## Forgetting targets -/

theorem invalidate_of_none (hp : s.program? ref = none) (force : Bool) :
    invalidate ref force s = .ok () s := by
  unfold invalidate
  rw [get_bind, hp]
  rfl

theorem invalidate_of_holds (hp : s.program? ref = some p) (hl : p.Holds ls) (force : Bool) :
    invalidate ref force s = .ok () (if !force && p.cachesClear then s
      else s.setProgram ref (p.withText (textOf (clearAll ls ++ [Line.endLine])) true)) := by
  have hlen := length_le_length_textOf (ls ++ [Line.endLine])
  have hclear : clearTargets p.buffer.text.length p.buffer.text
      = .ok (textOf (clearAll ls ++ [Line.endLine])) := by
    rw [hl.text, clearTargets_textOf _ _ (by omega), clearAll_append, clearAll_endLine]
  unfold invalidate
  rw [get_bind, hp]
  simp only
  split
  · rfl
  · rw [hclear, bind_ok (Edit.ofExcept_ok _)]
    rfl

theorem capacity_clearAll (hl : p.Holds ls) (flag : Bool) :
    (p.withText (textOf (clearAll ls ++ [Line.endLine])) flag).buffer.capacity
      = p.buffer.capacity := by
  simp only [Program.withText, Buffer.capacity, hl.text, textOf_append, length_append,
    length_textOf_clearAll]

/-- After a line was put in or taken out, the label table and the targets are brought up to date. -/
theorem finishLineEdit_cases {old : List Line} {delta : Int} {isLabel : Bool}
    (hp : s.program? ref = some p) (hold : p.Holds old) (hq : q = { p with buffer := b })
    (hl : q.Holds ls) (hlabels : isLabel = true → Readable s.programs)
    (hshift : isLabel = false → Shifts pc delta old ls) :
    ∃ p' s', finishLineEdit ref pc delta isLabel (s.setProgram ref q) = .ok () s' ∧
      s'.Agree (s.setProgram ref p') ∧ p.Settled s.loading ls p' ∧
      p'.buffer.capacity = b.capacity ∧ s'.used = s.used ∧ (s.Listed → s'.Listed) := by
  obtain ⟨t, hrun₁, ht, hused, hlisted⟩ : ∃ t, (if isLabel = true then rebuildLabels
      else shiftLabels ref pc delta) (s.setProgram ref q) = .ok () t ∧
      t.Agree (s.setProgram ref q) ∧ t.used = s.used ∧ (s.Listed → t.Listed) := by
    cases isLabel with
    | true =>
      obtain ⟨labels, hrun, hlisted⟩ := rebuildLabels_of_readable ((hlabels rfl).setProgram hl)
      exact ⟨_, hrun, ⟨rfl, rfl, rfl, rfl, rfl⟩, used_setProgram .., fun _ => hlisted⟩
    | false =>
      cases ref with
      | user i =>
        obtain ⟨pre, post, hps, rfl⟩ := exists_programs_split hp
        rw [setProgram_of_split q hps]
        exact ⟨_, rfl, ⟨rfl, rfl, rfl, rfl, rfl⟩, rfl, fun hs => hs.shift hps hold hl (hshift rfl)⟩
      | equation i => exact ⟨_, rfl, .refl _, rfl, fun hs => ⟨hs.lines⟩⟩
      | none | solver | integrator => cases hp
  have hqt : t.program? ref = some q := by rw [ht.program?, program?_setProgram_self q hp]
  have hrun : finishLineEdit ref pc delta isLabel (s.setProgram ref q)
      = refreshTargets ref t := by
    cases isLabel <;> exact bind_ok hrun₁
  rw [hrun, refreshTargets, get_bind, ht.loading, loading_setProgram]
  by_cases hload : s.loading = 0
  · have hflag : q.cachesClear = p.cachesClear := hq ▸ rfl
    rw [if_pos hload, bind_ok (invalidate_of_holds hqt hl false), hflag]
    cases hclear : p.cachesClear with
    | true =>
      obtain ⟨edits, hrun₂⟩ := edited_cases t
      refine ⟨q, _, hrun₂, ht.of_edits edits, ⟨?_, ?_, hq ▸ rfl, hq ▸ rfl⟩, hq ▸ rfl, hused,
        fun hs => ⟨(hlisted hs).lines⟩⟩ <;> subst hq
      · simpa [hclear] using hl
      · simp [hclear]
    | false =>
      have hforgot := Program.holds_clearAll (p := q) true hl.notEnd
      have hagree := ht.setProgram ref (q.withText (textOf (clearAll ls ++ [Line.endLine])) true)
      rw [setProgram_setProgram] at hagree
      obtain ⟨edits, hrun₂⟩ := edited_cases (t.setProgram ref
        (q.withText (textOf (clearAll ls ++ [Line.endLine])) true))
      refine ⟨_, _, hrun₂, hagree.of_edits edits, ⟨?_, ?_, hq ▸ rfl, hq ▸ rfl⟩,
        hq ▸ capacity_clearAll hl true, (used_setProgram ..).trans hused,
        fun hs => ⟨((hlisted hs).clearAll hqt hl hforgot).lines⟩⟩ <;> subst hq
      · rwa [if_pos ⟨hload, hclear⟩]
      · simp [Program.withText, hload]
  · rw [if_neg hload]
    refine ⟨q, t, rfl, ht, ⟨?_, ?_, hq ▸ rfl, hq ▸ rfl⟩, hq ▸ rfl, hused, hlisted⟩ <;> subst hq
    · simpa [hload] using hl
    · simp [hload]

/-! ## Putting a line in -/

/-- Compiled programs are edited in brackets only. -/
def Editable (s : Store) (p : Program) : Prop := p.generated = true → s.generatedEdits ≠ 0

theorem checkEditable_of_editable (h : s.Editable p) : checkEditable p s = .ok () s := by
  unfold checkEditable
  cases hg : p.generated with
  | false => rfl
  | true => simp [h hg]

theorem checkEditable_of_not_editable (h : ¬ s.Editable p) :
    checkEditable p s = .error (.restricted .generatedCode) s := by
  simp only [Editable, not_forall, not_not] at h
  obtain ⟨hg, h0⟩ := h
  unfold checkEditable
  simp [hg, h0]

/-- The offset of the place behind some lines, or the -1 that stands for the top. -/
def IsPlace (front : List Line) (pc : Int) : Prop :=
  pc = (textOf front).length ∨ pc = -1 ∧ front = []

/-- The bytes that a line takes in a program of the store; none if it names no label there. -/
def storedSize (s : Store) (line : Instr) : Nat := ((s.resolved? line).map Instr.size).getD 0

theorem storedSize_of_some (h : s.resolved? line = some line') :
    s.storedSize line = line'.size := by
  rw [storedSize, h]
  rfl

theorem storedSize_of_kind (h : line.operand.kind ≠ .labelIndex) :
    s.storedSize line = line.size := by
  refine storedSize_of_some ?_
  rw [resolved?, if_neg h]

/-- The name of a label replaces the operand of a line only. -/
theorem resolved?_same (h : s.resolved? line = some line') :
    line'.command = line.command ∧ line'.numberText = line.numberText := by
  unfold resolved? at h
  split at h
  · obtain ⟨name, -, rfl⟩ := Option.map_eq_some_iff.1 h
    exact ⟨rfl, rfl⟩
  · obtain rfl := Option.some.inj h
    exact ⟨rfl, rfl⟩

theorem resolve_of_some (hline : s.resolved? line = some line') :
    resolve line s = .ok line' s := by
  rw [resolve, get_bind, hline]
  rfl

theorem resolve_of_none (hline : s.resolved? line = none) :
    resolve line s = .error (.labelIndexNotFound line.operand.num.toInt) s := by
  rw [resolve, get_bind, hline]
  rfl

/-- The checks in front of an insertion pass in front of the END of a program that may be
    edited. -/
theorem insert_inside (line : Instr) (hp : s.program? ref = some p) (he : s.Editable p)
    (hpc : (if pc = -1 then 0 else pc) = (place : Int))
    (hin : place + endBytes.length ≤ p.buffer.text.length) :
    insert ref pc line s = (resolve line >>= putLine ref p place) s := by
  have hbounds : ¬ (((place : Int) < 0
      || (p.buffer.text.length : Int) - endBytes.length < place) = true) := by
    rw [Bool.or_eq_true, decide_eq_true_eq, decide_eq_true_eq]
    omega
  unfold insert
  rw [bind_ok (getProgram_of_some hp), bind_ok (checkEditable_of_editable he)]
  simp only [hpc]
  rw [if_neg hbounds]
  rfl

theorem insert_at_place (line : Instr) (hp : s.program? ref = some p) (he : s.Editable p)
    (hl : p.Holds (front ++ back)) (hpc : IsPlace front pc) :
    insert ref pc line s = (resolve line >>= putLine ref p (textOf front).length) s := by
  refine insert_inside line hp he ?_ ?_
  · rcases hpc with rfl | ⟨rfl, rfl⟩
    · rw [if_neg (by omega)]
    · rfl
  · have hlen := hl.length
    simp only [textOf_append, length_append] at hlen
    rw [show endBytes.length = 2 from rfl]
    omega

theorem insert_outside (line : Instr) (hp : s.program? ref = some p) (he : s.Editable p)
    (hout : p.buffer.text.length < place + endBytes.length) :
    insert ref place line s = .error (.pcOutside place ref) s := by
  have hbounds : ((place : Int) < 0
      || (p.buffer.text.length : Int) - endBytes.length < place) = true := by
    rw [Bool.or_eq_true, decide_eq_true_eq, decide_eq_true_eq]
    omega
  unfold insert
  rw [bind_ok (getProgram_of_some hp), bind_ok (checkEditable_of_editable he)]
  simp only [show ¬ (place : Int) = -1 by omega, if_false]
  rw [if_pos hbounds]
  rfl

theorem insert_of_none (hp : s.program? ref = none) :
    insert ref pc line s = .error (.invalidProgram ref) s := by
  unfold insert
  rw [bind_error (getProgram_of_none hp)]

theorem insert_of_not_editable (hp : s.program? ref = some p) (he : ¬ s.Editable p) :
    insert ref pc line s = .error (.restricted .generatedCode) s := by
  unfold insert
  rw [bind_ok (getProgram_of_some hp), bind_error (checkEditable_of_not_editable he)]

theorem holds_insertAt (hl : p.Holds (front ++ back)) (hb : b.text = p.buffer.text)
    (hlend : l.isEnd = false) :
    Program.Holds { p with buffer := b.insertAt (textOf front).length l.bytes }
      (front ++ l :: back) := by
  have htext : b.text = textOf front ++ textOf (back ++ [Line.endLine]) := by
    rw [hb, hl.text, append_assoc, textOf_append]
  refine ⟨?_, forall_mem_put hlend hl.notEnd⟩
  simp only [Buffer.insertAt, htext, take_left, drop_left]
  simp

theorem putLine_line_cases (hp : s.program? ref = some p) (hl : p.Holds (front ++ back))
    (hend : line.command ≠ .endLine) (hline : l.Writes line)
    (hlabels : (line.command = .lbl && line.operand.kind = .text) = true → Readable s.programs) :
    (∃ p' s', putLine ref p (textOf front).length line s = .ok ref s' ∧
      s'.Agree (s.setProgram ref p') ∧ p.Settled s.loading (front ++ l :: back) p' ∧
      s.Granted p.buffer.capacity (p.buffer.text.length + l.size) p'.buffer.capacity ∧
      s.Balanced s' ∧ (s.Listed → s'.Listed)) ∨
    ∃ e used, putLine ref p (textOf front).length line s = .error e { s with used := used } ∧
      s.Denied p.buffer.capacity (p.buffer.text.length + l.size) e := by
  have hcode' : line.encode.mapError Error.ofInstrFault = .ok l.bytes := by
    rw [hline.code]
    rfl
  have hlend := hline.isEnd_eq hend
  unfold putLine
  rw [if_neg hend, hcode', bind_ok (Edit.ofExcept_ok l.bytes)]
  rcases reserve_cases p.buffer l.bytes.length s with
    ⟨b, used, hrun, hb, hgranted, hused⟩ | ⟨e, used, hrun, he⟩
  · left
    have hs1 := agree_used s used
    obtain ⟨p', s', hfinish, hs', hsettled, hcapacity, hused', hlisted⟩ := finishLineEdit_cases
      (s := { s with used := used }) (hs1.program? ref ▸ hp) hl rfl (holds_insertAt hl hb hlend)
      hlabels fun hlabel => shifts_insert (labelEntry_of_writes hline hlend hlabel)
    rw [Buffer.capacity_insertAt _ (by rw [hb]; exact hgranted.enough)] at hcapacity
    have hagree : s'.Agree (s.setProgram ref p') := hs'.trans (hs1.symm.setProgram ref p')
    refine ⟨p', s', ?_, hagree, hsettled, by rwa [hcapacity], fun hword => ?_,
      fun hs => hlisted ⟨hs.lines⟩⟩
    · rw [bind_ok hrun, modify_bind]
      exact bind_ok hfinish
    · have htotal := total_setProgram hp p'
      rw [← hagree.total] at htotal
      rw [hused', hused hword, ← hcapacity,
        show (p'.buffer.capacity - p.buffer.capacity : Int) = s'.total - s.total by omega]
  · exact .inr ⟨e, used, bind_error hrun, he⟩

/-! ## Cutting and joining -/

theorem next_cases (hp : s.program? ref = some p) :
    (∃ pre q post, ref = .user pre.length ∧ s.programs = pre ++ p :: q :: post) ∨
      ∀ i, ref = .user i → s.programs[i.toNat + 1]? = none := by
  by_cases h : ∀ i, ref = .user i → s.programs[i.toNat + 1]? = none
  · exact Or.inr h
  · push Not at h
    obtain ⟨i, rfl, hq⟩ := h
    obtain ⟨pre, post, hps, rfl⟩ := exists_programs_split hp
    cases post with
    | nil => exact absurd (by simp [hps]) hq
    | cons q post => exact Or.inl ⟨pre, q, post, rfl, hps⟩

/-- A program whose targets were all forgotten. -/
structure Cleared (ls : List Line) (refs : Nat) (generated : Bool) (p : Program) : Prop where
  holds : p.Holds (clearAll ls)
  clear : p.cachesClear = true
  refs : p.refs = refs
  generated : p.generated = generated

theorem invalidate_of_split (pre post : List Program) (hps : s.programs = pre ++ p :: post)
    (hl : p.Holds ls) (hs : s.Listed) :
    ∃ q, invalidate (.user pre.length) true s = .ok () { s with programs := pre ++ q :: post } ∧
      Cleared ls p.refs p.generated q ∧ q.buffer.capacity = p.buffer.capacity ∧
      Listed { s with programs := pre ++ q :: post } := by
  have hforgot := Program.holds_clearAll (p := p) true hl.notEnd
  refine ⟨p.withText (textOf (clearAll ls ++ [Line.endLine])) true, ?_,
    ⟨hforgot, rfl, rfl, rfl⟩, capacity_clearAll hl true, ?_⟩
  · rw [invalidate_of_holds (program?_of_split hps) hl true, setProgram_of_split _ hps]
    rfl
  · rw [← setProgram_of_split _ hps]
    exact hs.clearAll (program?_of_split hps) hl hforgot

section

variable (hl : p.Holds (front ++ back))

include hl

theorem holds_front :
    Program.Holds { p with buffer := (p.buffer.truncate (textOf front).length).append endBytes }
      front := by
  have htext : p.buffer.text = textOf front ++ textOf (back ++ [Line.endLine]) := by
    rw [hl.text, append_assoc, textOf_append]
  refine ⟨?_, fun l h => hl.notEnd l (mem_append_left _ h)⟩
  simp [Buffer.append, Buffer.truncate, htext]

theorem holds_back (hb : b.text = []) :
    Program.Holds { buffer := b.append (textOf (back ++ [Line.endLine])) } back := by
  refine ⟨?_, fun l h => hl.notEnd l (mem_append_right _ h)⟩
  simp [Buffer.append, hb]

theorem capacity_front :
    ((p.buffer.truncate (textOf front).length).append endBytes).capacity = p.buffer.capacity := by
  have hlen := hl.length
  rw [textOf_append, length_append] at hlen
  have hend : endBytes.length = 2 := rfl
  rw [Buffer.capacity_append (Buffer.room_truncate (by omega)), Buffer.capacity_truncate]

end

theorem splitProgram_cases (hps : s.programs = pre ++ p :: post) (hl : p.Holds (front ++ back))
    (hread : Readable s.programs) :
    (∃ q r s', splitProgram (.user pre.length) p (textOf front).length s
        = .ok (.user (pre.length + 1 : Nat)) s' ∧
      s'.Agree { s with programs := pre ++ q :: r :: post } ∧
      Cleared front p.refs p.generated q ∧ Cleared back 0 false r ∧
      q.buffer.capacity = p.buffer.capacity ∧
      s.Granted 0 (textOf (back ++ [Line.endLine])).length r.buffer.capacity ∧ s.Balanced s' ∧
      s'.Listed) ∨
    ∃ e used, splitProgram (.user pre.length) p (textOf front).length s
        = .error e { s with used := used } ∧
      s.Denied 0 (textOf (back ++ [Line.endLine])).length e := by
  unfold splitProgram
  simp only [hl.text, append_assoc, drop_textOf, Int.toNat_natCast]
  rcases newBuffer_cases (textOf (back ++ [Line.endLine])).length s with
    ⟨c, hrun, hgranted⟩ | ⟨e, used, hrun, he⟩
  · left
    obtain ⟨q0, hq0⟩ : ∃ q0 : Program,
        q0 = { p with buffer := (p.buffer.truncate (textOf front).length).append endBytes } :=
      ⟨_, rfl⟩
    obtain ⟨r0, hr0⟩ : ∃ r0 : Program,
        r0 = { buffer := (Buffer.empty c).append (textOf (back ++ [Line.endLine])) } := ⟨_, rfl⟩
    have hq : q0.Holds front := hq0 ▸ holds_front hl
    have hr : r0.Holds back := hr0 ▸ holds_back hl rfl
    have hqc : q0.buffer.capacity = p.buffer.capacity := by rw [hq0, capacity_front hl]
    have hrc : r0.buffer.capacity = c := by
      rw [hr0, Buffer.capacity_append, Buffer.capacity_empty]
      rw [Buffer.capacity_empty]
      simpa [Buffer.empty] using hgranted.enough
    rw [bind_ok hrun, modify_bind]
    simp only [← hq0, ← hr0]
    rw [setProgram_of_split (s := { s with used := inWord (s.used + c) }) q0 hps]
    have htake : (pre ++ q0 :: post).take (pre.length + 1) = pre ++ [q0] := by
      simp [take_append]
    have hdrop : (pre ++ q0 :: post).drop (pre.length + 1) = post := by
      simp [drop_append]
    simp only [htake, hdrop, append_assoc, cons_append, nil_append]
    obtain ⟨labels, hrun3, hlisted⟩ := rebuildLabels_of_readable (s := { s with
        used := inWord (s.used + c), programs := pre ++ q0 :: r0 :: post }) (by
        rw [hps, readable_append, readable_cons] at hread
        simp only [readable_append, readable_cons]
        exact ⟨hread.1, ⟨_, hq⟩, ⟨_, hr⟩, hread.2.2⟩)
    obtain ⟨r1, hrun4, hr1, hrc1, hlisted4⟩ :=
      invalidate_of_split (pre ++ [q0]) post (by simp) hr hlisted
    obtain ⟨q1, hrun5, hq1, hqc1, hlisted5⟩ :=
      invalidate_of_split pre (r1 :: post) (by simp) hq hlisted4
    obtain ⟨edits, hrun6⟩ := edited_cases { s with
      used := inWord (s.used + c), programs := pre ++ q1 :: r1 :: post, labels := labels }
    rw [length_append, length_singleton] at hrun4
    refine ⟨q1, r1, { s with
        used := inWord (s.used + c), programs := pre ++ q1 :: r1 :: post, labels := labels,
        edits := edits }, ?_, ⟨rfl, rfl, rfl, rfl, rfl⟩, ?_, ?_, hqc1.trans hqc, ?_, fun _ => ?_,
      ⟨hlisted5.lines⟩⟩
    · rw [bind_ok hrun3, bind_ok hrun4, bind_ok hrun5, bind_ok hrun6]
      rfl
    · subst hq0
      exact hq1
    · subst hr0
      exact hr1
    · rwa [hrc1, hrc]
    · simp only [total, hps, map_append, map_cons, sum_append, sum_cons]
      congr 2
      omega
  · exact .inr ⟨e, used, bind_error hrun, he⟩

theorem Denied.exceeded {held need : Nat} {e : Error} (h : s.Denied held need e)
    (hcrash : e.isCrash = true) : e = .outOfBounds ∧ s.options.Exceeded need := by
  have hmore := h.more
  rcases h.fault with ⟨rfl, -⟩ | ⟨he, hbig⟩
  · cases hcrash
  · refine ⟨he, ?_⟩
    unfold Options.Exceeded
    omega

/-- The capacity that a buffer has and the bytes that it needs: a new one for the second half when
    an END cuts a program, and the one of the program for another line. -/
def Asks (s : Store) (p : Program) (back : List Line) (line : Instr) (held need : Nat) : Prop :=
  if line.command = .endLine then held = 0 ∧ need = (textOf (back ++ [Line.endLine])).length
  else held = p.buffer.capacity ∧ need = p.buffer.text.length + s.storedSize line

theorem Asks.le {held need : Nat} (h : s.Asks p back line held need)
    (hl : p.Holds (front ++ back)) :
    held ≤ p.buffer.capacity ∧
      need ≤ p.buffer.text.length + if line.command = .endLine then 0 else s.storedSize line := by
  unfold Asks at h
  split at h <;> rename_i hend
  · rw [hl.text, append_assoc, textOf_append front, length_append]
    omega
  · rw [if_neg hend]
    omega

/-- How putting a line in can end: the line is there, or an END has cut the program in two; the line
    or the program does not allow it; memory is denied; or the place is beyond all offsets. The
    answer depends on the program that is current then. -/
inductive Inserted {α : Type} (s : Store) (ref : ProgramRef) (p : Program) (front back : List Line)
    (line : Instr) (answer : ProgramRef → α) : EStateM.Result Error Store α → Prop
  | line {line' : Instr} {l : Line} {p' : Program} {s' : Store}
      (hres : s.resolved? line = some line') (hend : line'.command ≠ .endLine) (hl : l.Writes line')
      (hs' : s'.Agree (s.setProgram ref p')) (hp' : p.Settled s.loading (front ++ l :: back) p')
      (hgranted : s.Granted p.buffer.capacity (p.buffer.text.length + l.size) p'.buffer.capacity)
      (hbalanced : s.Balanced s') (hlisted : s.Listed → s'.Listed) (he : s.Editable p) :
      Inserted s ref p front back line answer (.ok (answer ref) s')
  | split {pre post : List Program} {q r : Program} {s' : Store} (hend : line.command = .endLine)
      (hps : s.programs = pre ++ p :: post) (href : ref = .user pre.length)
      (hs' : s'.Agree { s with programs := pre ++ q :: r :: post })
      (hq : Cleared front p.refs p.generated q) (hr : Cleared back 0 false r)
      (hcapacity : q.buffer.capacity = p.buffer.capacity)
      (hgranted : s.Granted 0 (textOf (back ++ [Line.endLine])).length r.buffer.capacity)
      (hbalanced : s.Balanced s') (hlisted : s'.Listed) (he : s.Editable p) :
      Inserted s ref p front back line answer (.ok (answer (.user (pre.length + 1 : Nat))) s')
  | refused {e : Error} (hcrash : e.isCrash = false) (hmemory : e ≠ .insufficientMemory)
      (hcause : ¬ s.Editable p ∨ s.resolved? line = none ∨
        (line.command ≠ .endLine ∧
          ∀ code line', s.resolved? line = some line' → line'.encode ≠ .ok code) ∨
        line.command = .endLine ∧ ∀ i, ref ≠ .user i) :
      Inserted s ref p front back line answer (.error e s)
  | denied {e : Error} {used : Int} {held need : Nat} (hasks : s.Asks p back line held need)
      (hdenied : s.Denied held need e) :
      Inserted s ref p front back line answer (.error e { s with used := used })
  | unaddressable (hfar : maxOffset < (textOf front).length) :
      Inserted s ref p front back line answer (.error .outOfBounds s)

theorem inserted_of_place (hp : s.program? ref = some p) (hl : p.Holds (front ++ back))
    (hplace : IsPlace front pc) (hz : line.command = .number → 0 ∉ line.numberText)
    (hread : ∀ line', s.resolved? line = some line' → line'.Relabels → Readable s.programs) :
    Inserted s ref p front back line id (insert ref pc line s) := by
  by_cases he : s.Editable p
  swap
  · rw [insert_of_not_editable hp he]
    exact .refused rfl (by simp) (.inl he)
  cases hres : s.resolved? line with
  | none =>
    rw [insert_at_place line hp he hl hplace, bind_error (resolve_of_none hres)]
    exact .refused rfl (by simp) (.inr (.inl hres))
  | some line' =>
    obtain ⟨hcommand, hspelling⟩ := resolved?_same hres
    rw [insert_at_place line hp he hl hplace, bind_ok (resolve_of_some hres)]
    by_cases hend : line'.command = .endLine
    · have hend₀ : line.command = .endLine := hcommand ▸ hend
      rw [putLine, if_pos hend]
      cases ref with
      | user i =>
        obtain ⟨pre, post, hps, rfl⟩ := exists_programs_split hp
        rcases splitProgram_cases hps hl (hread line' hres (.inl hend)) with
          ⟨q, r, s', hrun, hs', hq, hr, hcapacity, hgranted, hbalanced, hlisted⟩ |
          ⟨e, used, hrun, hdenied⟩
        · rw [hrun]
          exact .split hend₀ hps rfl hs' hq hr hcapacity hgranted hbalanced hlisted he
        · rw [hrun]
          refine .denied ?_ hdenied
          rw [Asks, if_pos hend₀]
          exact ⟨rfl, rfl⟩
      | none | equation | solver | integrator =>
        exact .refused rfl (by simp) (.inr (.inr (.inr ⟨hend₀, by simp⟩)))
    · cases hcode : line'.encode with
      | error fault =>
        have hput : putLine ref p (textOf front).length line' s
            = .error (.ofInstrFault fault) s := by
          rw [putLine, if_neg hend, hcode]
          rfl
        rw [hput]
        refine .refused (Instr.isCrash_of_encode hcode)
          (by cases fault <;> simp [Error.ofInstrFault])
          (.inr (.inr (.inl ⟨hcommand ▸ hend, fun code line₁ hres₁ hcode₁ => ?_⟩)))
        obtain rfl := Option.some.inj (hres.symm.trans hres₁)
        exact absurd (hcode.symm.trans hcode₁) (by simp)
      | ok code =>
        obtain ⟨l, rfl, hline⟩ := Instr.exists_writes hcode (by rwa [hcommand, hspelling])
        rcases putLine_line_cases hp hl hend hline
            (fun hlabel => hread line' hres (.inr (by simpa using hlabel))) with
          ⟨p', s', hrun, hs', hp', hgranted, hbalanced, hlisted⟩ | ⟨e, used, hrun, hdenied⟩
        · rw [hrun]
          exact .line hres hend hline hs' hp' hgranted hbalanced hlisted he
        · rw [hrun]
          refine .denied ?_ hdenied
          rw [Asks, if_neg (hcommand ▸ hend), storedSize_of_some hres, hline.size_eq]
          exact ⟨rfl, rfl⟩

theorem holds_joined (hl : p.Holds front) (hq : q.Holds back) (hb : b.text = p.buffer.text) :
    Program.Holds { p with
      buffer := (b.truncate (b.text.length - endBytes.length)).append q.buffer.text }
      (front ++ back) := by
  refine ⟨?_, fun l h => (mem_append.1 h).elim (hl.notEnd l) (hq.notEnd l)⟩
  have hlen : (textOf front ++ endBytes).length - endBytes.length = (textOf front).length := by
    simp
  simp only [Buffer.append, Buffer.truncate, hb, hl.textEq, hlen, take_left, hq.text]
  simp

theorem mergeNext_cases (hps : s.programs = pre ++ p :: q :: post) (hl : p.Holds front)
    (hq : q.Holds back) (hread : Readable s.programs) :
    (∃ r s', mergeNext (.user pre.length) p s = .ok () s' ∧
      s'.Agree { s with programs := pre ++ r :: post } ∧
      Cleared (front ++ back) p.refs p.generated r ∧
      s.Granted p.buffer.capacity (p.buffer.text.length + (textOf back).length) r.buffer.capacity ∧
      s.Balanced s' ∧ s'.Listed) ∨
    ∃ e used, mergeNext (.user pre.length) p s = .error e { s with used := used } ∧
      s.Denied p.buffer.capacity (p.buffer.text.length + (textOf back).length) e := by
  have hnext : s.programs[pre.length + 1]? = some q := by
    rw [hps, getElem?_append_right (by omega)]
    simp
  have hextra : q.buffer.text.length - endBytes.length = (textOf back).length := by
    rw [hq.length]
    rfl
  unfold mergeNext
  simp only [Int.toNat_natCast]
  rw [get_bind]
  simp only [hnext, hextra]
  rcases reserve_cases p.buffer (textOf back).length s with
    ⟨b, used, hrun, hb, hgranted, hused⟩ | ⟨e, used, hrun, he⟩
  · left
    obtain ⟨r0, hr0⟩ : ∃ r0 : Program, r0 = { p with
        buffer := (b.truncate (b.text.length - endBytes.length)).append q.buffer.text } := ⟨_, rfl⟩
    have hr : r0.Holds (front ++ back) := hr0 ▸ holds_joined hl hq hb
    have hrc : r0.buffer.capacity = b.capacity := by
      have henough := hgranted.enough
      have hlen := hl.length
      have hqlen := hq.length
      rw [hr0]
      rw [Buffer.capacity_append, Buffer.capacity_truncate]
      rw [Buffer.capacity_truncate]
      simp only [Buffer.truncate, length_take, hb]
      omega
    rw [bind_ok hrun, modify_bind]
    simp only [← hr0]
    rw [setProgram_of_split (s := { s with used := used }) r0 hps]
    have herase : (pre ++ r0 :: q :: post).eraseIdx (pre.length + 1) = pre ++ r0 :: post := by
      rw [eraseIdx_append_of_length_le (by omega)]
      simp
    obtain ⟨labels, hrun3, hlisted⟩ := rebuildLabels_of_readable (s := { s with
        programs := pre ++ r0 :: post, used := inWord (used - q.buffer.capacity) }) (by
      simp only [hps, readable_append, readable_cons] at hread ⊢
      exact ⟨hread.1, ⟨_, hr⟩, hread.2.2.2⟩)
    obtain ⟨r1, hrun4, hr1, hrc1, hlisted4⟩ := invalidate_of_split _ _ rfl hr hlisted
    obtain ⟨edits, hrun5⟩ := edited_cases { s with
      programs := pre ++ r1 :: post, labels := labels, used := inWord (used - q.buffer.capacity) }
    refine ⟨r1, { s with
        programs := pre ++ r1 :: post, labels := labels, used := inWord (used - q.buffer.capacity),
        edits := edits }, ?_, ⟨rfl, rfl, rfl, rfl, rfl⟩, ?_, by rwa [hrc1, hrc], fun hword => ?_,
      ⟨hlisted4.lines⟩⟩
    · unfold free
      rw [modify_bind, modify_bind]
      simp only [herase]
      rw [bind_ok hrun3, bind_ok hrun4]
      exact hrun5
    · subst hr0
      exact hr1
    · dsimp only
      rw [hused hword, inWord_sub_inWord]
      simp only [total, hps, map_append, map_cons, sum_append, sum_cons]
      congr 1
      omega
  · exact .inr ⟨e, used, bind_error hrun, he⟩

/-! ## Taking a line out -/

theorem delete_at_line {rest : Bytes} (hp : s.program? ref = some p) (he : s.Editable p)
    (ht : p.buffer.text = textOf front ++ (l.bytes ++ rest)) :
    delete ref (textOf front).length s =
      if l.isEnd then mergeNext ref p s
      else (do
        let size ← Edit.ofExcept ((lineSizeAt p.buffer.text (textOf front).length).mapError
          .ofInstrFault)
        modify (·.setProgram ref { p with buffer := p.buffer.removeAt (textOf front).length size })
        finishLineEdit ref (textOf front).length (-size)
          (l.header.command = .lbl && l.header.kind = .text) : Edit Unit) s := by
  have hin : ¬ ((((textOf front).length : Int) < 0
      || (p.buffer.text.length : Int) ≤ (textOf front).length) = true) := by
    have := l.two_le_size
    simp only [Line.size] at this
    have hlen : p.buffer.text.length
        = (textOf front).length + (l.bytes.length + rest.length) := by
      rw [ht]
      simp
    rw [Bool.or_eq_true, decide_eq_true_eq, decide_eq_true_eq]
    omega
  unfold delete
  rw [bind_ok (getProgram_of_some hp), bind_ok (checkEditable_of_editable he)]
  rw [if_neg hin, headerAt?_line ht]
  simp only [Line.isEnd_iff, Int.toNat_natCast]
  split <;> rfl

theorem holds_removeAt (hl : p.Holds (front ++ l :: back)) :
    Program.Holds { p with buffer := p.buffer.removeAt (textOf front).length l.size }
      (front ++ back) := by
  refine ⟨?_, forall_mem_cut hl.notEnd⟩
  simp only [Buffer.removeAt, hl.textAt, take_left]
  rw [← drop_drop, drop_left, Line.size, drop_left]
  simp

theorem delete_line_cases (hp : s.program? ref = some p) (he : s.Editable p)
    (hl : p.Holds (front ++ l :: back)) (hoff : ((textOf front).length : Int) ≤ maxOffset)
    (hread : Readable s.programs) :
    ∃ p' s', delete ref (textOf front).length s = .ok () s' ∧ s'.Agree (s.setProgram ref p') ∧
      p.Settled s.loading (front ++ back) p' ∧ p'.buffer.capacity = p.buffer.capacity ∧
      s'.used = s.used ∧ (s.Listed → s'.Listed) := by
  have hlend := hl.notEnd l (by simp)
  have hcapacity : (p.buffer.removeAt (textOf front).length l.size).capacity
      = p.buffer.capacity := by
    have hlen := hl.length
    simp only [textOf_append, textOf_cons, length_append] at hlen
    exact Buffer.capacity_removeAt (by rw [Line.size]; omega)
  have hrun : delete ref (textOf front).length s
      = finishLineEdit ref (textOf front).length (-l.size)
        (l.header.command = .lbl && l.header.kind = .text)
        (s.setProgram ref
          { p with buffer := p.buffer.removeAt (textOf front).length l.size }) := by
    rw [delete_at_line hp he hl.textAt, if_neg (by simp [hlend]), lineSizeAt_line hl.textAt hoff]
    rfl
  rw [hrun, ← hcapacity]
  refine finishLineEdit_cases hp hl rfl (holds_removeAt hl) (fun _ => hread)
    fun hlabel => shifts_delete fun n pc => ?_
  simp only [Line.labelEntry, hlend, hlabel, Bool.false_eq_true, if_false]

theorem delete_of_none (hp : s.program? ref = none) :
    delete ref pc s = .error (.invalidProgram ref) s := by
  unfold delete
  rw [bind_error (getProgram_of_none hp)]

theorem delete_of_not_editable (hp : s.program? ref = some p) (he : ¬ s.Editable p) :
    delete ref pc s = .error (.restricted .generatedCode) s := by
  unfold delete
  rw [bind_ok (getProgram_of_some hp), bind_error (checkEditable_of_not_editable he)]

theorem delete_at_top (hp : s.program? ref = some p) (he : s.Editable p) :
    delete ref (-1) s = .error (.pcOutside (-1) ref) s := by
  unfold delete
  rw [bind_ok (getProgram_of_some hp), bind_ok (checkEditable_of_editable he)]
  rfl

theorem delete_unaddressable (hp : s.program? ref = some p) (he : s.Editable p)
    (hl : p.Holds (front ++ l :: back)) (hoff : maxOffset < (textOf front).length) :
    delete ref (textOf front).length s = .error .outOfBounds s := by
  rw [delete_at_line hp he hl.textAt, if_neg (by simp [hl.notEnd l (by simp)]), lineSizeAt,
    if_pos hoff]
  rfl

theorem mergeNext_of_last (h : ∀ i, ref = .user i → s.programs[i.toNat + 1]? = none) :
    mergeNext ref p s = .error (.restricted .finalEnd) s := by
  unfold mergeNext
  cases ref with
  | user i =>
    simp only
    rw [get_bind, h i rfl]
    rfl
  | _ => rfl

theorem clearProgram_cases (hp : s.program? ref = some p) (he : s.Editable p)
    (hread : ∀ i, ref = .user i → Readable s.programs) :
    ∃ p' s', clearProgram ref s = .ok () s' ∧ s'.Agree (s.setProgram ref p') ∧
      Cleared [] p.refs p.generated p' ∧
      (endBytes.length ≤ p.buffer.text.length → p'.buffer.capacity = p.buffer.capacity) ∧
      s'.used = s.used ∧ (s.Listed → s'.Listed) := by
  obtain ⟨p', hp'⟩ : ∃ p' : Program, p' = { p with
      buffer := (p.buffer.truncate 0).append endBytes, cachesClear := true } := ⟨_, rfl⟩
  have htext : p'.buffer.text = endBytes := by simp [hp', Buffer.append, Buffer.truncate]
  have hcleared : Cleared [] p.refs p.generated p' := by
    refine ⟨Program.holds_nil htext, ?_, ?_, ?_⟩ <;> rw [hp']
  have hcapacity (hend : endBytes.length ≤ p.buffer.text.length) :
      p'.buffer.capacity = p.buffer.capacity := by
    rw [hp', Buffer.capacity_append (Buffer.room_truncate (by omega)), Buffer.capacity_truncate]
  unfold clearProgram
  rw [bind_ok (getProgram_of_some hp), bind_ok (checkEditable_of_editable he), modify_bind]
  simp only [← hp']
  cases ref with
  | user i =>
    obtain ⟨labels, hrun1, hlisted⟩ := rebuildLabels_of_readable
      ((hread i rfl).setProgram (Program.holds_nil htext))
    obtain ⟨edits, hrun2⟩ := edited_cases { s.setProgram (.user i) p' with labels := labels }
    simp only
    rw [bind_ok hrun1]
    exact ⟨p', _, hrun2, ⟨rfl, rfl, rfl, rfl, rfl⟩, hcleared, hcapacity, rfl,
      fun _ => ⟨hlisted.lines⟩⟩
  | equation i =>
    obtain ⟨edits, hrun2⟩ := edited_cases (s.setProgram (.equation i) p')
    exact ⟨p', _, hrun2, ⟨rfl, rfl, rfl, rfl, rfl⟩, hcleared, hcapacity, rfl, fun h => ⟨h.lines⟩⟩
  | none | solver | integrator => cases hp

theorem clearProgram_of_none (hp : s.program? ref = none) :
    clearProgram ref s = .error (.invalidProgram ref) s := by
  unfold clearProgram
  rw [bind_error (getProgram_of_none hp)]

theorem clearProgram_of_not_editable (hp : s.program? ref = some p) (he : ¬ s.Editable p) :
    clearProgram ref s = .error (.restricted .generatedCode) s := by
  unfold clearProgram
  rw [bind_ok (getProgram_of_some hp), bind_error (checkEditable_of_not_editable he)]

/-! ## Putting a line in behind another -/

theorem placed_self (ref : ProgramRef) (line : Instr) (place : Int) :
    placed ref line place ref = (ref, place) := by
  simp [placed]

theorem placed_end {current : ProgramRef} (hend : line.command = .endLine) (hne : current ≠ ref)
    (place : Int) : placed ref line place current = (current, -1) := by
  simp [placed, hend, hne]

theorem Inserted.map {α β : Type} {answer : ProgramRef → α} {x : Edit α}
    (h : Inserted s ref p front back line answer (x s)) (f : α → β) :
    Inserted s ref p front back line (fun current => f (answer current))
      ((do return f (← x) : Edit β) s) := by
  generalize hx : x s = r at h
  cases h with
  | line hres hend hl hs' hp' hgranted hbalanced hlisted he =>
    rw [bind_ok hx]
    exact .line hres hend hl hs' hp' hgranted hbalanced hlisted he
  | split hend hps href hs' hq hr hcapacity hgranted hbalanced hlisted he =>
    rw [bind_ok hx]
    exact .split hend hps href hs' hq hr hcapacity hgranted hbalanced hlisted he
  | refused hcrash hmemory hcause =>
    rw [bind_error hx]
    exact .refused hcrash hmemory hcause
  | denied hasks hdenied =>
    rw [bind_error hx]
    exact .denied hasks hdenied
  | unaddressable hfar =>
    rw [bind_error hx]
    exact .unaddressable hfar

theorem insertAfter_at_line {rest : Bytes} (line : Instr) (hp : s.program? ref = some p)
    (ht : p.buffer.text = textOf front ++ (l.bytes ++ rest)) :
    insertAfter ref (textOf front).length line s = (do
      let place ← if l.isEnd then pure ((textOf front).length : Int)
        else do
          let size ← Edit.ofExcept ((lineSizeAt p.buffer.text (textOf front).length).mapError
            .ofInstrFault)
          pure ((textOf front).length + size : Int)
      return placed ref line place (← insert ref place line) : Edit (ProgramRef × Int)) s := by
  unfold insertAfter
  rw [bind_ok (getProgram_of_some hp)]
  rw [if_neg (by omega), headerAt?_line ht]
  simp only [Line.isEnd_iff]

theorem insertAfter_of_none (hp : s.program? ref = none) :
    insertAfter ref pc line s = .error (.invalidProgram ref) s := by
  unfold insertAfter
  rw [bind_error (getProgram_of_none hp)]

/-- The offset of the last of some lines, or the -1 that stands for the top. -/
def IsLast (front : List Line) (pc : Int) : Prop :=
  front = [] ∧ pc = -1 ∨ ∃ init last, front = init ++ [last] ∧ pc = (textOf init).length

/-- A line goes in behind the one at an offset. Behind the END there is no place, and the line goes
    in front of it. -/
theorem inserted_behind (hp : s.program? ref = some p) (hl : p.Holds (front ++ back))
    (hpc : IsLast front pc ∨ back = [] ∧ pc = (textOf front).length)
    (hz : line.command = .number → 0 ∉ line.numberText)
    (hread : ∀ line', s.resolved? line = some line' → line'.Relabels → Readable s.programs) :
    Inserted s ref p front back line (placed ref line (textOf front).length)
      (insertAfter ref pc line s) := by
  have hinserted := (inserted_of_place hp hl (.inl rfl) hz hread).map
    (placed ref line (textOf front).length)
  rcases hpc with (⟨rfl, rfl⟩ | ⟨init, last, rfl, rfl⟩) | ⟨rfl, rfl⟩
  · unfold insertAfter
    rw [bind_ok (getProgram_of_some hp)]
    exact hinserted
  · have ht : p.buffer.text = textOf init ++ (last.bytes ++ _) :=
      Program.Holds.textAt (by simpa using hl)
    have hplace : ((textOf init).length + last.size : Int) = (textOf (init ++ [last])).length := by
      simp [Line.size]
    rw [insertAfter_at_line line hp ht, if_neg (by simp [hl.notEnd last (by simp)])]
    by_cases hoff : ((textOf init).length : Int) ≤ maxOffset
    · rw [← hplace] at hinserted ⊢
      rw [lineSizeAt_line ht hoff]
      exact hinserted
    · rw [lineSizeAt, if_pos (by omega)]
      exact .unaddressable (by omega)
  · rw [append_nil] at hl
    rw [insertAfter_at_line line hp hl.textEnd]
    exact hinserted

theorem inserted_last (hp : s.program? ref = some p) (hl : p.Holds front) (hpc : IsLast front pc)
    (hz : line.command = .number → 0 ∉ line.numberText)
    (hread : ∀ line', s.resolved? line = some line' → line'.Relabels → Readable s.programs) :
    Inserted s ref p front [] line (placed ref line (textOf front).length)
      (insertAfter ref pc line s) :=
  inserted_behind hp (by simpa using hl) (.inl hpc) hz hread

/-! ## Programs and slots -/

theorem newProgram_create_cases (count : Nat) (hread : Readable s.programs) :
    (∃ p s', newProgram.create count s = .ok (.user count) s' ∧
      s'.Agree { s with programs := s.programs ++ [p] } ∧ Empty false p ∧
      s.Granted 0 endBytes.length p.buffer.capacity ∧ s.Balanced s' ∧ s'.Listed) ∨
    ∃ e used, newProgram.create count s = .error e { s with used := used } ∧
      s.Denied 0 endBytes.length e := by
  unfold newProgram.create
  rcases emptyProgram_cases false s with ⟨p, hrun, hp, hgranted⟩ | ⟨e, used, hrun, he⟩
  · left
    obtain ⟨labels, hrun2, hlisted⟩ := rebuildLabels_of_readable (s := { s with
        used := inWord (s.used + p.buffer.capacity), programs := s.programs ++ [p] }) (by
      simp only [readable_append, readable_cons]
      exact ⟨hread, ⟨_, Program.holds_nil hp.text⟩, by simp [Readable]⟩)
    obtain ⟨edits, hrun3⟩ := edited_cases { s with
      used := inWord (s.used + p.buffer.capacity), programs := s.programs ++ [p], labels := labels }
    refine ⟨p, { s with
        used := inWord (s.used + p.buffer.capacity), programs := s.programs ++ [p],
        labels := labels, edits := edits }, ?_, ⟨rfl, rfl, rfl, rfl, rfl⟩, hp, hgranted,
      fun _ => ?_, ⟨hlisted.lines⟩⟩
    · rw [bind_ok hrun, modify_bind, bind_ok hrun2, bind_ok hrun3]
      rfl
    · simp only [total, map_append, map_cons, map_nil, sum_append, sum_cons, sum_nil]
      congr 2
      omega
  · exact .inr ⟨e, used, bind_error hrun, he⟩

theorem newProgram_of_empty (h : s.programs.getLast? = some p)
    (ht : p.buffer.text.length = endBytes.length) :
    newProgram s = .ok (.user (s.programs.length - 1 : Nat)) s := by
  unfold newProgram
  rw [get_bind]
  simp only [h]
  rw [if_pos ht]
  rfl

theorem newProgram_of_full
    (h : ∀ p, s.programs.getLast? = some p → p.buffer.text.length ≠ endBytes.length) :
    newProgram s = newProgram.create s.programs.length s := by
  unfold newProgram
  rw [get_bind]
  cases hlast : s.programs.getLast? with
  | none => rfl
  | some p =>
    simp only
    rw [if_neg (h p hlast)]

section

variable (hp : s.program? (.equation i) = some p)

include hp

theorem freeEquation_eq_ok (hr : p.refs = 0) :
    freeEquation (.equation i) s = .ok () { s with
      used := inWord (s.used - p.buffer.capacity)
      equations := s.equations.set i.toNat none } := by
  unfold freeEquation
  simp only
  rw [bind_ok (getProgram_of_some hp), if_neg (by omega)]
  rfl

theorem freeEquation_of_idle (hr : p.refs = 0) :
    ∃ s', freeEquation (.equation i) s = .ok () s' ∧
      s'.Agree { s with equations := s.equations.set i.toNat none } :=
  ⟨_, freeEquation_eq_ok hp hr, rfl, rfl, rfl, rfl, rfl⟩

theorem freeEquation_busy (hr : p.refs ≠ 0) :
    freeEquation (.equation i) s = .error (.programInUse (.equation i)) s := by
  unfold freeEquation
  dsimp only
  rw [bind_ok (getProgram_of_some hp), if_pos (Nat.pos_of_ne_zero hr)]
  rfl

end

theorem freeEquation_of_none (hp : s.program? (.equation i) = none) :
    freeEquation (.equation i) s = .error (.invalidProgram (.equation i)) s := by
  unfold freeEquation
  simp only
  rw [bind_error (getProgram_of_none hp)]

theorem freeEquation_of_not_equation (h : ∀ i, ref ≠ .equation i) :
    freeEquation ref s = .error (.notEquation ref) s := by
  cases ref with
  | equation i => exact absurd rfl (h i)
  | _ => rfl

/-! ## Bulk loads -/

/-- The program is what is left of another when all its targets are forgotten. -/
def Forgot (p p' : Program) : Prop :=
  ∃ ls, p.Holds ls ∧ Cleared ls p.refs p.generated p' ∧ p'.buffer.capacity = p.buffer.capacity

theorem Forgot.capacity_eq {q : Program} (h : Forgot p q) :
    q.buffer.capacity = p.buffer.capacity := by
  obtain ⟨ls, -, -, hsize⟩ := h
  exact hsize

theorem forgot_clearAll (hls : p.Holds ls) :
    Forgot p (p.withText (textOf (clearAll ls ++ [Line.endLine])) true) :=
  ⟨ls, hls, ⟨Program.holds_clearAll true hls.notEnd, rfl, rfl, rfl⟩, capacity_clearAll hls true⟩

/-- The programs in a row are invalidated one by one. -/
theorem invalidateAll_cases {γ : Type} {R : γ → γ → Prop} {P : γ → Prop} {f : List γ → Store}
    (refAt : Nat → ProgramRef) (hstep : ∀ done x todo, P x → (f (done ++ x :: todo)).Listed →
      ∃ y, invalidate (refAt done.length) true (f (done ++ x :: todo))
        = .ok () (f (done ++ y :: todo)) ∧ R x y ∧ (f (done ++ y :: todo)).Listed)
    (done todo : List γ) (hall : ∀ x ∈ todo, P x) (hs : (f (done ++ todo)).Listed) :
    ∃ todo', invalidateAll ((range' done.length todo.length).map refAt) (f (done ++ todo))
        = .ok () (f (done ++ todo')) ∧ List.Forall₂ R todo todo' ∧ (f (done ++ todo')).Listed := by
  induction todo generalizing done with
  | nil => exact ⟨[], rfl, .nil, hs⟩
  | cons x todo ih =>
    obtain ⟨hx, hall⟩ := forall_mem_cons.1 hall
    obtain ⟨y, hrun, hy, hs⟩ := hstep done x todo hx hs
    obtain ⟨todo', hrun', htodo, hs⟩ := ih (done ++ [y]) hall (by simpa using hs)
    refine ⟨y :: todo', ?_, .cons hy htodo, by simpa using hs⟩
    rw [length_cons, range'_succ, map_cons, invalidateAll, bind_ok hrun]
    simpa using hrun'

theorem invalidate_slot (done todo : List (Option Program)) {slot : Option Program}
    (hes : s.equations = done ++ slot :: todo) (hslot : ∀ p, slot = some p → ∃ ls, p.Holds ls) :
    ∃ slot', invalidate (.equation done.length) true s
      = .ok () { s with equations := done ++ slot' :: todo } ∧ Option.Rel Forgot slot slot' := by
  cases slot with
  | none =>
    have hnone : s.program? (.equation done.length) = none := by
      rw [program?, at?, if_neg (by omega)]
      simp [hes]
    refine ⟨none, ?_, .none⟩
    rw [invalidate_of_none hnone, ← hes]
  | some p =>
    obtain ⟨ls, hls⟩ := hslot p rfl
    have hp : s.program? (.equation done.length) = some p :=
      program?_equation_eq_some_iff.2 ⟨by omega, by simp [hes]⟩
    refine ⟨_, ?_, .some (forgot_clearAll hls)⟩
    rw [invalidate_of_holds hp hls true]
    simp [setProgram, hes]

theorem map_eq_of_forall₂ {α β : Type} {R : α → α → Prop} {f : α → β} {l l' : List α}
    (h : List.Forall₂ R l l') (hR : ∀ a ∈ l, ∀ b, R a b → f b = f a) : l'.map f = l.map f := by
  induction h with
  | nil => rfl
  | cons hab _ ih =>
    obtain ⟨ha, hl⟩ := forall_mem_cons.1 hR
    rw [map_cons, map_cons, ha _ hab, ih hl]

/-- The end of the last bulk load forgets the targets of all jumps. -/
theorem endBulkLoad_last (hload : s.loading = 1) (hps : ∀ p ∈ s.programs, ∃ ls, p.Holds ls)
    (hes : ∀ p, some p ∈ s.equations → ∃ ls, p.Holds ls) :
    ∃ ps es s', endBulkLoad s = .ok () s' ∧
      s'.Agree { s with programs := ps, equations := es, loading := 0 } ∧
      List.Forall₂ Forgot s.programs ps ∧ List.Forall₂ (Option.Rel Forgot) s.equations es ∧
      s'.used = s.used ∧ s'.total = s.total ∧ s'.Listed := by
  obtain ⟨labels, hrun1, hlisted⟩ :=
    rebuildLabels_of_readable (s := { s with loading := s.loading - 1 }) hps
  obtain ⟨ps, hrun2, hps', hlisted⟩ := invalidateAll_cases (fun i => .user i) (R := Forgot)
    (f := fun ps => { s with loading := s.loading - 1, labels := labels, programs := ps })
    (fun done p todo hp hlisted => by
      obtain ⟨ls, hls⟩ := hp
      obtain ⟨q, hrun, hq, hsize, hlisted⟩ := invalidate_of_split done todo rfl hls hlisted
      exact ⟨q, hrun, ⟨ls, hls, hq, hsize⟩, hlisted⟩) [] s.programs hps hlisted
  obtain ⟨es, hrun3, hes', hlisted⟩ := invalidateAll_cases (fun i => .equation i)
    (f := fun es => { s with
      loading := s.loading - 1, labels := labels, programs := ps, equations := es })
    (fun done slot todo hslot hlisted => (invalidate_slot done todo (by rfl) hslot).imp
      fun _ h => ⟨h.1, h.2, ⟨hlisted.lines⟩⟩) [] s.equations
    (fun slot hmem p hp => hes p (hp ▸ hmem)) ⟨hlisted.lines⟩
  refine ⟨ps, es, { s with
      loading := s.loading - 1, labels := labels, programs := ps, equations := es }, ?_,
    ⟨rfl, rfl, rfl, by rw [hload], rfl⟩, hps', hes', rfl, ?_, hlisted⟩
  swap
  · rw [total, total, map_eq_of_forall₂ hps' fun _ _ _ h => h.capacity_eq,
      map_eq_of_forall₂ hes' fun _ _ _ h => ?_]
    cases h with
    | none => rfl
    | some h => exact h.capacity_eq
  unfold endBulkLoad
  rw [get_bind, if_neg (by omega), set_bind, if_pos hload, bind_ok hrun1,
    range_eq_range', range_eq_range']
  exact (bind_ok hrun2).trans hrun3

theorem endBulkLoad_of_zero (hload : s.loading = 0) : endBulkLoad s = .ok () s := by
  unfold endBulkLoad
  rw [get_bind, if_pos hload]
  rfl

/-- The end of a bulk load inside another changes nothing else. -/
theorem endBulkLoad_inner (hload : 1 < s.loading) :
    endBulkLoad s = .ok () { s with loading := s.loading - 1 } := by
  unfold endBulkLoad
  rw [get_bind, if_neg (by omega), set_bind, if_neg (by omega)]
  rfl

/-! ## A new store -/

/-- A new store holds one empty program, or none when the limit leaves no memory for it. -/
theorem new_cases {options : Options} (h : Store.new options = .ok s) :
    s.options = options.normalize ∧ s.equations = [] ∧ s.loading = 0 ∧ s.generatedEdits = 0 ∧
      ((∃ p, s.programs = [p] ∧ Empty false p) ∨
        s.programs = [] ∧ 0 < options.memoryLimit) ∧ s.Listed := by
  unfold Store.new at h
  rcases emptyProgram_cases false { options := options.normalize } with
    ⟨p, hrun, hp, -⟩ | ⟨e, used, hrun, he⟩
  · obtain ⟨labels, hrun2, hlisted⟩ := rebuildLabels_of_readable (s := {
      options := options.normalize
      used := inWord (0 + p.buffer.capacity)
      programs := [p] }) (readable_cons.2 ⟨⟨[], Program.holds_nil hp.text⟩, by simp [Readable]⟩)
    simp only [hrun, hrun2] at h
    obtain rfl := Except.ok.inj h
    exact ⟨rfl, rfl, rfl, rfl, .inl ⟨p, rfl, hp⟩, ⟨hlisted.lines⟩⟩
  · simp only [hrun] at h
    split at h
    · exact absurd h (by simp)
    · next hcrash =>
      obtain rfl := Except.ok.inj h
      refine ⟨rfl, rfl, rfl, rfl, .inr ⟨rfl, ?_⟩, ⟨[], .nil, rfl⟩⟩
      rcases he.fault with ⟨-, hlimit⟩ | ⟨rfl, -⟩
      · exact hlimit
      · exact absurd (by decide : Error.outOfBounds.isCrash = true) hcrash

end Store

end Keystroke
