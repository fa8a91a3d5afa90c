import Keystroke.Proofs.Machine.Failure
import Keystroke.Proofs.Machine.Returns

set_option autoImplicit false

/-! # When a step crashes

Started in programs that are whole lines, the machine stays on their lines, whatever it runs: it
goes on behind a line, past one, to a label or back to a return. So there is one way only in which a
step can crash (`Session.step_crashes_iff`): a level that declared its outputs is left when the
stack is lower than it was below the inputs, or the number of outputs is negative. -/

namespace Keystroke

open Operation List Line Session

variable {front back : List Line} {l : Line} {ref : ProgramRef}

/-! ## Texts that can be run -/

/-- The text is whole lines and an END, none of them jumps to a negative number, the targets that
    are known are places of it, and its offsets fit into a target. -/
def Walkable (text : Bytes) : Prop :=
  ∃ ls, text = textOf (ls ++ [endLine]) ∧ text.length < 2 ^ 31 ∧
    ∀ l ∈ ls, l.isEnd = false ∧ l.header.isNegativeJump = false ∧
      (¬ l.target < 0 → ∃ n ∈ places text, l.target.toInt = n)

theorem zero_mem_places {text : Bytes} (h : Walkable text) : 0 ∈ places text := by
  obtain ⟨ls, rfl, -⟩ := h
  exact mem_places_textOf.2 ⟨[], _, rfl, rfl⟩

/-- The targets of all lines are places, also of the END, which has none. -/
theorem Walkable.target (h : Walkable (textOf (front ++ l :: back))) (ht : ¬ l.target < 0) :
    ∃ n ∈ places (textOf (front ++ l :: back)), l.target.toInt = n := by
  obtain ⟨ls, htext, -, hls⟩ := h
  have hmem : l ∈ ls ++ [endLine] := by simp [← textOf_inj htext]
  rcases mem_append.1 hmem with hl | hl
  · exact (hls l hl).2.2 ht
  · rw [mem_singleton.1 hl] at ht
    exact absurd (by decide) ht

theorem Walkable.withTarget {strict : Bool} {t : Int32}
    (h : Walkable (textOf (front ++ l :: back ++ [endLine]))) (hc : l.header.cached = true)
    (ht : t = targetIn strict (front ++ [l]) back l.instr) :
    Walkable (textOf (front ++ l.withTarget t :: back ++ [endLine])) ∧
      ∀ n ∈ places (textOf (front ++ l :: back ++ [endLine])),
        n ∈ places (textOf (front ++ l.withTarget t :: back ++ [endLine])) := by
  obtain ⟨ls, htext, hlen, hls⟩ := h
  obtain rfl : front ++ l :: back = ls := append_cancel_right (textOf_inj htext)
  have hsizes : (front ++ l :: back ++ [endLine]).map size
      = (front ++ l.withTarget t :: back ++ [endLine]).map size := by simp
  have hplaces (n : Nat) := @mem_places_congr _ _ n hsizes
  refine ⟨⟨_, rfl, ?_, fun m hm => ?_⟩, hplaces⟩
  · rwa [length_textOf, ← hsizes, ← length_textOf]
  · simp only [mem_append, mem_cons] at hm hls
    have hkept (h : m ∈ front ∨ m = l ∨ m ∈ back) (hu : ¬ m.target < 0) :
        ∃ n ∈ places (textOf (front ++ l.withTarget t :: back ++ [endLine])),
          m.target.toInt = n := by
      obtain ⟨n, hn, hmn⟩ := (hls m h).2.2 hu
      exact ⟨n, hplaces n hn, hmn⟩
    rcases hm with hm | rfl | hm
    · exact ⟨(hls m (.inl hm)).1, (hls m (.inl hm)).2.1, hkept (.inl hm)⟩
    · obtain ⟨hend, hneg, -⟩ := hls l (.inr (.inl rfl))
      refine ⟨by rw [isEnd_withTarget, hend], by rw [header_withTarget, hneg], fun hu => ?_⟩
      rw [target_withTarget t hc] at hu ⊢
      rw [ht] at hu
      obtain ⟨n, hn, htn⟩ := targetIn_mem_lineStarts (by simpa using hlen) hu
      refine ⟨n, hplaces n (mem_append_left _ ?_), by rw [← htn, ← ht]⟩
      simpa using hn
    · exact ⟨(hls m (.inr (.inr hm))).1, (hls m (.inr (.inr hm))).2.1, hkept (.inr (.inr hm))⟩

/-! ## Stores whose programs can be run -/

namespace Store

variable {s t u : Store} {p q : Program} {pc : Int}

/-- If there is such a program, the offset is one of its places. -/
def Stands (s : Store) (ref : ProgramRef) (pc : Int) : Prop :=
  ∀ p, s.program? ref = some p → ∃ n ∈ places p.buffer.text, pc = n

/-- The programs are the same and can still be run, and none of their places is lost. -/
structure Sustains (s t : Store) : Prop where
  labels : t.labels = s.labels
  programs : ∀ ref q, t.program? ref = some q → ∃ p, s.program? ref = some p ∧
    (Walkable p.buffer.text → Walkable q.buffer.text) ∧
    ∀ n ∈ places p.buffer.text, n ∈ places q.buffer.text

theorem Sustains.stands (h : s.Sustains t) (hs : s.Stands ref pc) : t.Stands ref pc := by
  intro q hq
  obtain ⟨p, hp, -, hplaces⟩ := h.programs ref q hq
  obtain ⟨n, hn, hpc⟩ := hs p hp
  exact ⟨n, hplaces n hn, hpc⟩

theorem sustains_setProgram (hp : s.program? ref = some p)
    (hwalk : Walkable p.buffer.text → Walkable q.buffer.text)
    (hplaces : ∀ n ∈ places p.buffer.text, n ∈ places q.buffer.text) :
    s.Sustains (s.setProgram ref q) := by
  refine ⟨by cases ref <;> rfl, fun r q' hq' => ?_⟩
  by_cases hr : r = ref
  · subst hr
    obtain rfl := Option.some.inj ((program?_setProgram_self q hp).symm.trans hq')
    exact ⟨p, hp, hwalk, hplaces⟩
  · rw [program?_setProgram_ne q hp hr] at hq'
    exact ⟨q', hq', id, fun _ => id⟩

/-- Labels and the texts of programs are the same. -/
structure SameTexts (s t : Store) : Prop where
  labels : t.labels = s.labels
  texts : ∀ ref, (t.program? ref).map (·.buffer.text) = (s.program? ref).map (·.buffer.text)

theorem SameTexts.refl (s : Store) : s.SameTexts s := ⟨rfl, fun _ => rfl⟩

theorem SameTexts.exists_program (h : s.SameTexts t) (hq : t.program? ref = some q) :
    ∃ p, s.program? ref = some p ∧ p.buffer.text = q.buffer.text := by
  rw [← Option.map_eq_some_iff, ← h.texts, hq, Option.map_some]

theorem sameTexts_of_renoted (h : s.Renoted t) : s.SameTexts t := by
  induction h with
  | refl => exact .refl s
  | tail _ hnotes ih =>
    rcases hnotes with rfl | ⟨ref, p, n, hp, rfl⟩
    · exact ih
    refine ⟨.trans (by cases ref <;> rfl) ih.labels, fun r => ?_⟩
    rw [← ih.texts]
    by_cases hr : r = ref
    · rw [hr, program?_setProgram_self _ hp, hp, Option.map_some, Option.map_some]
    · rw [program?_setProgram_ne _ hp hr]

theorem SameTexts.sustains (h : s.SameTexts t) : s.Sustains t := by
  refine ⟨h.labels, fun ref q hq => ?_⟩
  obtain ⟨p, hp, htext⟩ := h.exists_program hq
  exact ⟨p, hp, fun hwalk => htext ▸ hwalk, fun n hn => htext ▸ hn⟩

theorem Listed.exists_line {l : Label} (h : s.Listed) (hl : l ∈ s.labels) :
    ∃ p front m back, s.program? (.user l.program) = some p ∧
      p.buffer.text = textOf (front ++ m :: back) ∧ l.pc = (textOf front).length := by
  obtain ⟨lss, hlss, htable⟩ := h.lines
  rw [htable] at hl
  obtain ⟨-, ls, hls, hentry⟩ := mem_tableOf.1 hl
  obtain ⟨front, m, back, hsplit, hm⟩ := mem_labelsOf.1 hentry
  obtain ⟨hin', rfl⟩ := List.getElem?_eq_some_iff.1 hls
  have hin : l.program - 0 < s.programs.length := by rwa [hlss.length_eq]
  refine ⟨s.programs[l.program - 0], front, m, back, program?_user_eq_some_iff.2 ⟨by omega, ?_⟩,
    ?_, ?_⟩
  · exact getElem?_eq_getElem hin
  · rw [← hsplit]
    exact (hlss.get hin hin').text
  · simpa using (eq_of_mem_labelEntry hm).2

/-- The number of a line can be told in every program that can be run. -/
theorem lineAt_of_walkable (h : ∀ p, s.program? ref = some p → Walkable p.buffer.text) :
    ∃ n, s.lineAt ref pc = .ok n := by
  have hcount (ls : List Line) (count here line : Nat) :
      ∃ n, countLines pc count here line (textOf (ls ++ [endLine])) = .ok n := by
    induction ls generalizing count here line with
    | nil =>
      cases count with
      | zero => exact ⟨_, rfl⟩
      | succ count =>
        rw [nil_append, countLines]
        split
        · exact ⟨_, rfl⟩
        · exact ⟨_, rfl⟩
    | cons l ls ih =>
      cases count with
      | zero => exact ⟨_, rfl⟩
      | succ count =>
        rw [cons_append, textOf_cons, countLines, l.read?_append, l.lineSize_append]
        split
        · exact ⟨_, rfl⟩
        · dsimp only
          split
          · exact ⟨_, rfl⟩
          · rw [Line.size, drop_left]
            exact ih _ _ _
  unfold lineAt
  split
  · exact ⟨_, rfl⟩
  · split
    · exact ⟨_, rfl⟩
    · next p hp =>
      obtain ⟨ls, htext, -⟩ := h p hp
      rw [htext]
      exact hcount _ _ _ _

end Store

/-! ## Sessions that can run -/

namespace Session

variable {s t u : Session} {line : Instr} {next : Int} {e : Error}

/-- All programs can be run, and labels and pending returns lead to places of them. -/
structure Ready (s : Session) : Prop where
  programs : ∀ ref p, s.store.program? ref = some p → Walkable p.buffer.text
  labels : ∀ l ∈ s.store.labels, s.store.Stands (.user l.program) l.pc
  calls : s.calls.WellFormed
  frames : ∀ f ∈ s.calls.frames, s.store.Stands f.ref f.pc

/-- The machine stands at a place, too. -/
structure Runnable (s : Session) : Prop extends Ready s where
  place : s.store.Stands s.current s.pc

/-- The level declared its outputs, but they cannot be taken: the stack is lower than below the
    inputs, or there are to be less than none. -/
def Undermined (s : Session) : Prop :=
  s.calls.hasFunc = .ok true ∧ ∃ record, s.funcs.find? s.calls.level = some record ∧
    (record.outputs < 0 ∨ (s.stack.length : Int) < record.base)

/-- The machine is about to leave such a level. -/
def Undercut (s : Session) : Prop :=
  s.running = true ∧ s.Undermined ∧ ∃ p line size, s.store.program? s.current = some p ∧
    decodeAt p.buffer.text s.pc = .ok (line, size) ∧ line.command.action? = some .leave

theorem Ready.of_sustains (h : s.Ready) (hstore : s.store.Sustains t.store)
    (hcalls : t.calls.WellFormed)
    (hframes : ∀ f ∈ t.calls.frames, t.store.Stands f.ref f.pc) : t.Ready where
  programs ref q hq := by
    obtain ⟨p, hp, hwalk, -⟩ := hstore.programs ref q hq
    exact hwalk (h.programs ref p hp)
  labels l hl := by
    rw [hstore.labels] at hl
    exact hstore.stands (h.labels l hl)
  calls := hcalls
  frames := hframes

theorem Ready.of_same (h : s.Ready) (hstore : t.store = s.store) (hcalls : t.calls = s.calls) :
    t.Ready := by
  obtain ⟨hprograms, hlabels, hwf, hframes⟩ := h
  rw [← hstore] at hprograms hlabels hframes
  rw [← hcalls] at hwf hframes
  exact ⟨hprograms, hlabels, hwf, hframes⟩

theorem Ready.atPlace (h : s.Ready) (hplace : s.store.Stands s.current s.pc) : s.AtPlace := by
  intro p hp
  obtain ⟨ls, htext, -, hls⟩ := h.programs _ p hp
  exact ⟨⟨ls, ⟨htext, fun l hl => (hls l hl).1⟩, fun l hl => (hls l hl).2.1⟩, hplace p hp⟩

/-! ## Reading a line -/

/-- A line that was read: the lines behind it and at its target, if it has one, can be stood at. -/
structure Reached (s : Store) (ref : ProgramRef) (pc : Int) (line : Instr) (size : Nat) : Prop where
  next : s.Stands ref (pc + size)
  target : ¬ line.operand.target < 0 → s.Stands ref line.operand.target.toInt

theorem reached_of_line {s : Store} {p : Program} (hp : s.program? ref = some p)
    (htext : p.buffer.text = textOf (front ++ l :: back)) (hwalk : Walkable p.buffer.text) :
    Reached s ref (textOf front).length l.instr l.size where
  next q hq := by
    obtain rfl := Option.some.inj (hp.symm.trans hq)
    rw [htext]
    refine ⟨_, mem_places_textOf.2 ⟨front ++ [l], back, by simp, rfl⟩, ?_⟩
    simp [size]
  target ht q hq := by
    obtain rfl := Option.some.inj (hp.symm.trans hq)
    rw [htext] at hwalk ⊢
    exact hwalk.target ht

theorem Runnable.resolveTarget (h : s.Runnable) :
    Outcome (fun r store => s.store.Sustains store ∧ Reached store s.current s.pc r.1 r.2 ∧
        ∃ p line, s.store.program? s.current = some p ∧
          decodeAt p.buffer.text s.pc = .ok (line, r.2) ∧ line.command = r.1.command)
      (fun e store => e.isCrash = false ∧ store = s.store ∧
        ∀ p, s.store.program? s.current = some p →
          ∃ fault, decodeAt p.buffer.text s.pc = .error fault)
      (Store.resolveTarget s.current s.pc s.store) := by
  have hfetched := (h.atPlace h.place).fetched
  -- Offsets reach farther than the places of a program.
  have hnear {p : Program} (hp : s.store.program? s.current = some p) : s.pc ≤ maxOffset := by
    obtain ⟨ls, htext, hlen, -⟩ := h.programs _ p hp
    obtain ⟨n, hn, hpc⟩ := h.place p hp
    rw [htext] at hn hlen
    have hle := le_length_of_mem_places hn
    rw [hpc, maxOffset]
    omega
  generalize Store.resolveTarget s.current s.pc s.store = r at hfetched
  cases hfetched with
  | refused hread hcrash =>
    refine .error ⟨?_, rfl, hread⟩
    by_contra he
    obtain ⟨hfar, hp⟩ := hcrash (by simpa using he)
    obtain ⟨p, hp⟩ := Option.ne_none_iff_exists'.1 hp
    exact absurd (hnear hp) (by omega)
  | @line p front back l hp htext hpc =>
    have hread := decodeAt_line (by simpa using htext)
      (hpc ▸ hnear hp)
    rw [hpc]
    exact .ok ⟨(Store.SameTexts.refl _).sustains, reached_of_line hp htext (h.programs _ p hp), p,
      l.instr, hp, hread, rfl⟩
  | @found p front back l t hp hl hpc hc hu ht =>
    have hread := decodeAt_line hl.textAt (hpc ▸ hnear hp)
    have hwalk := h.programs _ p hp
    rw [hl.text] at hwalk
    obtain ⟨hwalk', hplaces⟩ := hwalk.withTarget hc ht
    have hsustains : s.store.Sustains (s.store.setProgram s.current (p.withText
        (textOf (front ++ l.withTarget t :: back ++ [endLine])) false)) :=
      Store.sustains_setProgram hp (fun _ => hwalk') (by rw [hl.text]; exact hplaces)
    have htext : (p.withText (textOf (front ++ l.withTarget t :: back ++ [endLine]))
        false).buffer.text = textOf (front ++ l.withTarget t :: (back ++ [endLine])) := by
      simp [Program.withText]
    have hreached := reached_of_line (Store.program?_setProgram_self _ hp) htext hwalk'
    rw [instr_withTarget t hc, size_withTarget] at hreached
    rw [hpc]
    exact .ok ⟨hsustains, hreached, p, l.instr, hp, hread, rfl⟩

/-! ## Performing a line -/

/-- Labels and pending returns are at given places. -/
structure Posted (P : ProgramRef → Int → Prop) (s : Session) : Prop where
  calls : s.calls.WellFormed
  labels : ∀ l ∈ s.store.labels, P (.user l.program) l.pc
  frames : ∀ f ∈ s.calls.frames, P f.ref f.pc

/-- The line leads to a given place, or stops the machine at one, and the pending returns lead to
    such places. If the line there is skipped, the line was a test and changed no program. -/
structure Arrives (P : ProgramRef → Int → Prop) (c : Command) (next : Int) (s : Session) (n : Next)
    (t : Session) : Prop where
  store : s.store.SameTexts t.store
  calls : t.calls.WellFormed
  frames : ∀ f ∈ t.calls.frames, P f.ref f.pc
  place : P t.current (if t.running then n.pc else t.pc)
  skip : n.skip = true →
    c.isConditional = true ∧ n.pc = next ∧ t.store = s.store ∧ t.current = s.current

/-- A line that fails in the ordinary way has changed nothing. -/
def Failed (s : Session) (e : Error) (t : Session) : Prop := e.isCrash = false ∧ t = s

variable {P : ProgramRef → Int → Prop} {c : Command}

theorem arrives_of_quiet {x : Machine Next} (hx : Quiet (·.Follows c next) x) (hs : s.Posted P)
    (hrunning : s.running = true) (hnext : P s.current next) :
    Outcome (Arrives P c next s) s.Failed (x s) := by
  refine (hx s).imp (fun n t h => ?_) fun _ _ h => h
  obtain ⟨⟨rfl, htest⟩, _, _, _, _, rfl⟩ := h
  exact ⟨.refl _, hs.calls, hs.frames, by simpa [hrunning] using hnext,
    fun h => ⟨htest h, rfl, rfl, rfl⟩⟩

theorem arrives_declare (n : Int) (hs : s.Posted P) (hrunning : s.running = true)
    (hnext : P s.current next) : Outcome (Arrives P c next s) s.Failed
      ((do declare n; return { pc := next } : Machine Next) s) := by
  obtain ⟨calls, hmark⟩ := hs.calls.exists_markFunc
  by_cases hfew : (s.stack.length : Int) < n.tdiv 10
  · have hrun : declare n s = .error .tooFewArguments s := by
      unfold declare
      rw [get_bind]
      rw [if_pos hfew]
      rfl
    rw [bind_error hrun]
    exact .error ⟨rfl, rfl⟩
  · have hrun : declare n s = .ok () { s with
        calls := calls
        funcs := s.funcs.put s.calls.level ⟨s.stack.length - n.tdiv 10, n.tmod 10⟩ } := by
      unfold declare
      rw [get_bind]
      dsimp only
      rw [if_neg hfew, hmark, bind_ok (Machine.ofExcept_ok calls)]
      rfl
    rw [bind_ok hrun]
    refine .ok ⟨.refl _, hs.calls.markFunc hmark, fun f hf => ?_, by simpa [hrunning] using hnext,
      by simp⟩
    have hmem : (f.ref, f.pc) ∈ s.calls.frames.map fun f => (f.ref, f.pc) := by
      rw [← CallStack.frames_markFunc hmark]
      exact mem_map_of_mem hf
    obtain ⟨g, hg, hgf⟩ := mem_map.1 hmem
    obtain ⟨href, hpc⟩ := Prod.mk.inj hgf
    rw [← href, ← hpc]
    exact hs.frames g hg

theorem pushReturn_cases (hs : s.Posted P) (hnext : P s.current next) :
    Outcome (fun _ t => ∃ calls store, t = { s with calls := calls, store := store } ∧
      s.store.SameTexts store ∧ calls.WellFormed ∧ ∀ f ∈ calls.frames, P f.ref f.pc)
      s.Failed (pushReturn s.current next s) := by
  unfold pushReturn
  rw [get_bind]
  cases hpush : s.calls.push s.current next with
  | error e =>
    refine .error ⟨?_, rfl⟩
    unfold CallStack.push at hpush
    split at hpush <;> cases hpush
    rfl
  | ok calls =>
    refine .ok ⟨_, _, rfl, ?_, hs.calls.push hpush, fun f hf => ?_⟩
    · -- The return is noted in the program that is left, if it keeps such notes.
      split
      · exact .refl _
      · exact .refl _
      · exact Store.sameTexts_of_renoted (.single (Store.notes_retain _ _))
    · rw [CallStack.frames_push hpush] at hf
      rcases mem_cons.1 hf with rfl | hf
      · exact hnext
      · exact hs.frames f hf

theorem arrives_jump (call : Bool) (hs : s.Posted P) (hrunning : s.running = true)
    (hnext : P s.current next)
    (htarget : ¬ line.operand.target < 0 → P s.current line.operand.target.toInt) :
    Outcome (Arrives P c next s) s.Failed (jump line next call s) := by
  -- What a jump does once its target is known.
  have hgo {ref : ProgramRef} {pc : Int} (hplace : P ref pc) {rest : Machine Next}
      (hrest : ∀ calls store, rest { s with calls := calls, store := store }
        = .ok { pc := pc } { s with calls := calls, store := store, current := ref }) :
      Outcome (Arrives P c next s) s.Failed ((do
        if call then pushReturn (← get).current next
        rest : Machine Next) s) := by
    cases call with
    | false =>
      change Outcome _ _ (rest s)
      rw [hrest s.calls s.store]
      exact .ok ⟨.refl _, hs.calls, hs.frames, by simpa [hrunning] using hplace, by simp⟩
    | true =>
      refine (pushReturn_cases hs hnext).bind fun _ t h => ?_
      obtain ⟨calls, store, rfl, hstore, hcalls, hframes⟩ := h
      change Outcome _ _ (rest _)
      rw [hrest calls store]
      exact .ok ⟨hstore, hcalls, hframes, by simpa [hrunning] using hplace, by simp⟩
  unfold jump
  split
  · rw [get_bind]
    cases hfind : s.store.findGlobal? line.operand.text with
    | none => exact .error ⟨rfl, rfl⟩
    | some place =>
      obtain ⟨l, hl, rfl⟩ := Option.map_eq_some_iff.1 hfind
      have hmem := mem_reverse.1 (mem_of_find?_eq_some hl)
      exact hgo (hs.labels l hmem) fun _ _ => rfl
  · split
    · exact .error ⟨rfl, rfl⟩
    · next ht => exact hgo (htarget ht) fun _ _ => rfl

/-! ## Leaving a level -/

/-- The outputs are taken unless there is no room for them on the stack. -/
theorem takeOutputs_cases (popped : Popped) (record? : Option FuncRecord) (t : Session) :
    Outcome
      (fun _ u => ¬ (popped.frame.hasFunc = true ∧ ∃ record, record? = some record ∧
        (record.outputs < 0 ∨ (t.stack.length : Int) < record.base)) ∧
        ∃ stack, u = { t with stack := stack })
      (fun e _ => e.isCrash = true ∧ popped.frame.hasFunc = true ∧ ∃ record, record? = some record ∧
        (record.outputs < 0 ∨ (t.stack.length : Int) < record.base))
      (takeOutputs popped record? t) := by
  unfold takeOutputs
  cases popped.frame.hasFunc with
  | false => exact .ok ⟨nofun, t.stack, rfl⟩
  | true =>
    cases record? with
    | none => exact .ok ⟨nofun, t.stack, rfl⟩
    | some record =>
      change Outcome _ _ ((do
        let stack ← Machine.ofExcept (keepOutputs t.stack record)
        modify fun s => { s with stack := stack } : Machine Unit) t)
      unfold keepOutputs
      dsimp only
      split
      · exact .error ⟨rfl, rfl, record, rfl, by omega⟩
      · refine .ok ⟨?_, _, rfl⟩
        rintro ⟨-, r, hr, hlow⟩
        cases hr
        omega

/-- Leaving a level goes back to a place, or stops; it crashes if the outputs cannot be taken. -/
theorem arrives_leave (hs : s.Posted P) (hrunning : s.running = true) (hplace : P s.current s.pc) :
    Outcome (fun n t => Arrives P c next s n t ∧ ¬ s.Undermined)
      (fun e _ => e.isCrash = true ∧ s.Undermined) (leave next s) := by
  obtain ⟨popped, calls, hpop, hwf, hmarked, hframes, -⟩ := CallStack.exists_pop hs.calls
  obtain ⟨store, hrun, hnoted⟩ := @popReturn_of_pop popped { s with
    locals := s.locals.remove s.calls.level
    funcs := s.funcs.remove s.calls.level } calls hpop
  have hstore : s.store.SameTexts store := Store.sameTexts_of_renoted hnoted
  have hleft : ∀ f ∈ calls.frames, P f.ref f.pc :=
    fun f hf => hs.frames f (by simp [hframes, hf])
  have hmark : s.calls.hasFunc = .ok true ↔ popped.frame.hasFunc = true := by simp [hmarked]
  rw [leave_apply, bind_ok hrun]
  unfold Undermined
  rw [hmark]
  have htake := takeOutputs_cases popped (s.funcs.find? s.calls.level) { s with
    locals := s.locals.remove s.calls.level, funcs := s.funcs.remove s.calls.level
    calls := calls, store := store }
  refine htake.bind fun _ t h => ?_
  obtain ⟨hcalm, stack, rfl⟩ := h
  unfold goBack
  cases htop : popped.top with
  | true => exact .ok ⟨⟨hstore, hwf, hleft, hplace, by simp⟩, hcalm⟩
  | false =>
    have hback := hs.frames popped.frame (by simp [hframes, htop])
    cases popped.stop with
    | true => exact .ok ⟨⟨hstore, hwf, hleft, hback, by simp⟩, hcalm⟩
    | false => exact .ok ⟨⟨hstore, hwf, hleft, by simpa [hrunning] using hback, by simp⟩, hcalm⟩

/-! ## Steps -/

/-- A line arrives, or fails; it crashes if it leaves a level whose outputs cannot be taken. -/
theorem arrives_perform (hs : s.Posted P) (hrunning : s.running = true) (hplace : P s.current s.pc)
    (hnext : line.command.action? ≠ some .leave → P s.current next)
    (htarget : ¬ line.operand.target < 0 → P s.current line.operand.target.toInt) :
    Outcome (fun n t => Arrives P line.command next s n t ∧
        ¬ (line.command.action? = some .leave ∧ s.Undermined))
      (fun e t => (e.isCrash = true ↔ line.command.action? = some .leave ∧ s.Undermined) ∧
        (e.isCrash = false → t = s)) (perform line next s) := by
  have hother (haction : line.command.action? ≠ some .leave) {r : EStateM.Result Error Session Next}
      (h : Outcome (Arrives P line.command next s) s.Failed r) :
      Outcome (fun n t => Arrives P line.command next s n t ∧
          ¬ (line.command.action? = some .leave ∧ s.Undermined))
        (fun e t => (e.isCrash = true ↔ line.command.action? = some .leave ∧ s.Undermined) ∧
          (e.isCrash = false → t = s)) r := by
    refine h.imp (fun n t h => ⟨h, fun hl => haction hl.1⟩) fun e t h => ?_
    exact ⟨by simp [h.1, haction], fun _ => h.2⟩
  rcases perform_cases line next with
    ⟨hquiet, haction⟩ | ⟨haction, hrun⟩ | ⟨haction, hrun⟩ | ⟨call, haction, hrun⟩
  · exact hother haction (arrives_of_quiet hquiet hs hrunning (hnext haction))
  · rw [hrun]
    exact hother (by simp [haction]) (arrives_declare _ hs hrunning (hnext (by simp [haction])))
  · rw [hrun]
    refine (arrives_leave hs hrunning hplace).imp (fun n t h => ⟨h.1, fun hl => h.2 hl.2⟩)
      fun e t h => ?_
    exact ⟨iff_of_true h.1 ⟨haction, h.2⟩, fun he => absurd h.1 (by simp [he])⟩
  · rw [hrun]
    exact hother (by simp [haction])
      (arrives_jump call hs hrunning (hnext (by simp [haction])) htarget)

theorem Ready.of_arrives {n : Next} (hs : s.Ready) (h : Arrives s.store.Stands c next s n t) :
    t.Ready :=
  hs.of_sustains h.store.sustains h.calls fun f hf => h.store.sustains.stands (h.frames f hf)

theorem skippedSize_of_text {p : Program} (hp : s.store.program? s.current = some p)
    (htext : p.buffer.text = textOf (front ++ back)) (hlen : p.buffer.text.length < 2 ^ 31) :
    s.skippedSize (textOf front).length = (textOf (back.take 1)).length := by
  have hnear : ((textOf front).length : Int) ≤ maxOffset := by
    rw [htext, textOf_append, length_append] at hlen
    rw [maxOffset]
    omega
  rw [skippedSize, Store.text, hp]
  dsimp only
  rw [htext, textOf_append, lineSizeAt_append _ _ hnear]
  cases back with
  | nil => rfl
  | cons l back =>
    simp [Except.mapError, size]

theorem Ready.stands_skipped {pc : Int} (hs : s.Ready) (h : s.store.Stands s.current pc) :
    s.store.Stands s.current (pc + s.skippedSize pc) := by
  intro p hp
  obtain ⟨ls, htext, hlen, -⟩ := hs.programs _ p hp
  obtain ⟨n, hn, rfl⟩ := h p hp
  rw [htext] at hn
  obtain ⟨front, back, hls, rfl⟩ := mem_places_textOf.1 hn
  rw [hls] at htext
  rw [skippedSize_of_text hp htext hlen, htext]
  refine ⟨_, mem_places_textOf.2 ⟨front ++ back.take 1, back.drop 1, ?_, rfl⟩, by simp⟩
  rw [append_assoc, take_append_drop]

/-- The error of a line crashes as the line does: its number can be told. -/
theorem isCrash_lineError (hs : e.isCrash = false → s.Ready) (c : Command) :
    (s.lineError c e).isCrash = e.isCrash := by
  unfold lineError
  split
  · rfl
  · next he =>
    obtain ⟨n, hline⟩ := @Store.lineAt_of_walkable s.current s.store s.pc
      ((hs (by simpa using he)).programs s.current)
    rw [hline]
    rfl

/-- A step arrives at a place again, whether the line succeeds or fails, and crashes only where the
    outputs of a level that it leaves cannot be taken. -/
theorem Runnable.step (hs : s.Runnable) :
    Outcome (fun _ t => t.Runnable ∧ ¬ s.Undercut)
      (fun e t => (e.isCrash = true ↔ s.Undercut) ∧ (e.isCrash = false → t.Runnable))
      (step s) := by
  unfold Session.step
  by_cases hrunning : s.running = true
  swap
  · rw [if_pos (by simpa using hrunning)]
    exact .ok ⟨hs, fun h => hrunning h.1⟩
  rw [if_neg (by simpa using hrunning)]
  have hread := hs.resolveTarget
  generalize Store.resolveTarget s.current s.pc s.store = r at hread
  cases hread with
  | error h =>
    obtain ⟨hcrash, rfl, hunread⟩ := h
    refine .error ⟨iff_of_false (by simp [hcrash]) ?_, fun _ => ⟨hs.of_same rfl rfl, hs.place⟩⟩
    rintro ⟨-, -, p, line, size, hp, hline, -⟩
    obtain ⟨fault, hfault⟩ := hunread p hp
    rw [hfault] at hline
    cases hline
  | @ok r store h =>
    obtain ⟨line, size⟩ := r
    obtain ⟨hstore, hreached, p, read, hp, hline, hcommand⟩ := h
    have hs' : Runnable { s with store := store } :=
      ⟨hs.of_sustains hstore hs.calls fun f hf => hstore.stands (hs.frames f hf),
        hstore.stands hs.place⟩
    have hcut : (line.command.action? = some .leave ∧ Undermined { s with store := store })
        ↔ s.Undercut := by
      constructor
      · rintro ⟨haction, hmine⟩
        exact ⟨hrunning, hmine, p, read, size, hp, hline, hcommand ▸ haction⟩
      · rintro ⟨-, hmine, q, m, k, hq, hm, haction⟩
        obtain rfl := Option.some.inj (hp.symm.trans hq)
        obtain ⟨rfl, rfl⟩ := Prod.mk.inj (Except.ok.inj (hline.symm.trans hm))
        exact ⟨hcommand ▸ haction, hmine⟩
    have hperform := arrives_perform ⟨hs'.calls, hs'.labels, hs'.frames⟩ hrunning hs'.place
      (fun _ => hreached.next) hreached.target
    rw [hcut] at hperform
    dsimp only at hperform ⊢
    generalize perform line (s.pc + size) { s with store := store } = r at hperform
    cases hperform with
    | @error e t h =>
      obtain ⟨hcrash, hsame⟩ := h
      have hready (he : e.isCrash = false) : t.Runnable := hsame he ▸ hs'
      have herror := isCrash_lineError (fun he => (hready he).toReady) line.command
      refine .error ⟨by rw [herror, hcrash], fun he => ?_⟩
      have ht := hready (herror ▸ he)
      exact ⟨ht.of_same rfl rfl, ht.place⟩
    | ok h =>
      obtain ⟨harrives, hcalm⟩ := h
      have ht := hs'.of_arrives harrives
      have hplace := harrives.store.sustains.stands harrives.place
      dsimp only
      split
      · next hstop =>
        rw [if_neg (by simpa using hstop)] at hplace
        exact .ok ⟨⟨ht, hplace⟩, hcalm⟩
      · next hgo =>
        rw [if_pos (by simpa using hgo)] at hplace
        split
        · exact .ok ⟨⟨ht.of_same rfl rfl, ht.stands_skipped hplace⟩, hcalm⟩
        · exact .ok ⟨⟨ht.of_same rfl rfl, hplace⟩, hcalm⟩

/-! ## Runs -/

/-- One more step is made, and succeeds or fails in the ordinary way. -/
def Goes (s t : Session) : Prop :=
  step s = .ok () t ∨ ∃ e, step s = .error e t ∧ e.isCrash = false

theorem Runnable.goes (hs : s.Runnable) (h : Goes s t) : t.Runnable := by
  have hstep := hs.step
  rcases h with h | ⟨e, h, he⟩
  · rw [h] at hstep
    cases hstep with
    | ok h => exact h.1
  · rw [h] at hstep
    cases hstep with
    | error h => exact h.2 he

/-- However many steps are made, the machine stands at a place: by induction on the steps. -/
theorem Runnable.run (hs : s.Runnable) (h : Relation.ReflTransGen Goes s t) : t.Runnable := by
  induction h with
  | refl => exact hs
  | tail _ hgo ih => exact ih.goes hgo

theorem Ready.call (hs : s.Ready) (h : call ref s = .ok () t) : t.Runnable := by
  unfold Session.call at h
  rw [get_bind] at h
  cases hp : s.store.program? ref with
  | none =>
    rw [hp] at h
    cases h
  | some p =>
    rw [hp] at h
    obtain ⟨-, rfl⟩ := EStateM.Result.ok.inj h
    refine ⟨hs.of_same rfl rfl, fun q hq => ⟨0, zero_mem_places (hs.programs ref q hq), rfl⟩⟩

/-! ## Programs as they are written -/

/-- The text is lines as they are written, and an END. None of them is an END or a jump to a
    negative number, and no number is spelled with a zero byte, behind which its spelling would be
    read as lines. -/
def Written (text : Bytes) : Prop :=
  ∃ lines codes, List.Forall₂ (fun i code => Instr.encode i = .ok code) lines codes ∧
    text = codes.flatten ++ endBytes ∧ text.length < 2 ^ 31 ∧
    ∀ i ∈ lines, i.command ≠ .endLine ∧ i.goesToNegative = false ∧ i.hasZeroByte = false

theorem exists_lines_of_written {lines : List Instr} {codes : List Bytes}
    (h : List.Forall₂ (fun i code => Instr.encode i = .ok code) lines codes)
    (hzero : ∀ i ∈ lines, i.hasZeroByte = false) :
    ∃ ls : List Line, codes.flatten = textOf ls ∧
      ∀ l ∈ ls, ∃ i ∈ lines, l.header = i.storedHeader ∧ l.instr = i.readBack := by
  induction h with
  | nil => exact ⟨[], rfl, nofun⟩
  | @cons i code lines codes hcode _ ih =>
    obtain ⟨hi, hlines⟩ := forall_mem_cons.1 hzero
    obtain ⟨l, rfl, hheader, hinstr⟩ := Instr.exists_line_of_encode hcode fun hnum h0 => by
      simp [Instr.hasZeroByte, hnum, h0] at hi
    obtain ⟨ls, hls, hmem⟩ := ih hlines
    refine ⟨l :: ls, by rw [flatten_cons, hls, textOf_cons], fun m hm => ?_⟩
    rcases mem_cons.1 hm with rfl | hm
    · exact ⟨i, mem_cons_self, hheader, hinstr⟩
    · obtain ⟨j, hj, hmj⟩ := hmem m hm
      exact ⟨j, mem_cons_of_mem _ hj, hmj⟩

theorem Written.walkable {text : Bytes} (h : Written text) : Walkable text := by
  obtain ⟨lines, codes, hcodes, htext, hlen, hlines⟩ := h
  obtain ⟨ls, hls, hmem⟩ := exists_lines_of_written hcodes fun i hi => (hlines i hi).2.2
  refine ⟨ls, by rw [htext, hls, textOf_append]; rfl, hlen, fun l hl => ?_⟩
  obtain ⟨i, hi, hheader, hinstr⟩ := hmem l hl
  obtain ⟨hend, hneg, -⟩ := hlines i hi
  refine ⟨?_, by rw [hheader, Instr.isNegativeJump_storedHeader, hneg], fun ht => ?_⟩
  · rw [isEnd, hheader]
    exact beq_false_of_ne hend
  · rw [target, hinstr, Instr.target_readBack] at ht
    exact absurd (by decide) ht

/-- A session is ready when its programs are as they are written, its label table is up to date, and
    no return is pending or the pending ones lead to lines. -/
theorem ready_of_written
    (hprograms : ∀ ref p, s.store.program? ref = some p → Written p.buffer.text)
    (hlisted : s.store.Listed) (hcalls : s.calls.WellFormed)
    (hframes : ∀ f ∈ s.calls.frames, s.store.Stands f.ref f.pc) : s.Ready where
  programs ref p hp := (hprograms ref p hp).walkable
  labels l hl p hp := by
    obtain ⟨q, front, m, back, hq, htext, hpc⟩ := hlisted.exists_line hl
    obtain rfl := Option.some.inj (hq.symm.trans hp)
    rw [htext]
    exact ⟨_, mem_places_textOf.2 ⟨front, m :: back, rfl, rfl⟩, hpc⟩
  calls := hcalls
  frames := hframes

/-- After any number of steps of a program, whether they succeeded or failed, the next one crashes
    if and only if it leaves a level that declared its outputs, and the stack has meanwhile fallen
    below the inputs, or the number of outputs is negative. -/
theorem step_crashes_iff {ref : ProgramRef} (hs : s.Ready) (hcall : Session.call ref s = .ok () t)
    (hrun : Relation.ReflTransGen Goes t u) :
    (∃ e v, Session.step u = .error e v ∧ e.isCrash = true) ↔ u.Undercut := by
  have hstep := ((hs.call hcall).run hrun).step
  constructor
  · rintro ⟨e, v, h, he⟩
    rw [h] at hstep
    cases hstep with
    | error h => exact h.1.1 he
  · intro hcut
    cases h : step u with
    | ok _ v =>
      rw [h] at hstep
      cases hstep with
      | ok h => exact absurd hcut h.2
    | error e v =>
      rw [h] at hstep
      cases hstep with
      | error h => exact ⟨e, v, rfl, h.1.2 hcut⟩

/-- A session with the program FUNC 00, DROP, RTN, and one number on the stack. -/
def dropping : Session where
  store := storeOf ([64, 17, 128, 66, 16, 93, 0] ++ endBytes) true 3
  calls := { max := 8 }
  stack := [1]
  current := .user 0

theorem written_dropping (ref : ProgramRef) (p : Program)
    (h : dropping.store.program? ref = some p) : Written p.buffer.text := by
  cases ref with
  | user i =>
    have hmem := mem_of_getElem? (Store.program?_user_eq_some_iff.1 h).2
    rw [mem_singleton.1 hmem]
    exact ⟨[.withNum .func 0, .plain .drop, .plain .rtn], [[64, 17, 128], [66, 16], [93, 0]],
      .cons rfl (.cons rfl (.cons rfl .nil)), rfl, by decide, by decide⟩
  | equation i => simp [dropping, storeOf, Store.program?, Store.at?] at h
  | none | solver | integrator => cases h

theorem listed_dropping : dropping.store.Listed :=
  ⟨[[⟨[64, 17, 128], by decide⟩, ⟨[66, 16], by decide⟩, ⟨[93, 0], by decide⟩]],
    .cons ⟨rfl, by decide⟩ .nil, rfl⟩

/-- The function takes nothing, but drops the number of its caller, so its outputs cannot be
    taken. -/
theorem step_crashes_iff_dropping : ∃ t u e v, Session.call (.user 0) dropping = .ok () t ∧
    Relation.ReflTransGen Goes t u ∧ Session.step u = .error e v ∧ e.isCrash = true := by
  have hready := ready_of_written written_dropping listed_dropping (.base rfl) nofun
  obtain ⟨t, hcall⟩ : ∃ t, call (.user 0) dropping = .ok () t := ⟨_, rfl⟩
  obtain ⟨u, hfunc⟩ : ∃ u, step t = .ok () u := by
    cases hcall
    exact ⟨_, rfl⟩
  obtain ⟨v, hdrop⟩ : ∃ v, step u = .ok () v := by
    cases hcall
    cases hfunc
    exact ⟨_, rfl⟩
  have hcut : v.Undercut := by
    cases hcall
    cases hfunc
    cases hdrop
    exact ⟨rfl, ⟨rfl, _, rfl, by decide⟩, _, _, _, rfl, rfl, rfl⟩
  have hrun : Relation.ReflTransGen Goes t v := .tail (.tail .refl (.inl hfunc)) (.inl hdrop)
  obtain ⟨e, w, hstep, he⟩ := (step_crashes_iff hready hcall hrun).2 hcut
  exact ⟨t, v, e, w, hcall, hrun, hstep, he⟩

end Session

end Keystroke
