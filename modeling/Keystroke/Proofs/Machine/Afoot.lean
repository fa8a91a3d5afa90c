import Keystroke.Proofs.Machine.Undercut

set_option autoImplicit false

/-! # Where the machine stands while it runs

A machine that runs stands at a line of a program, with one exception
(`Session.on_line_while_running`): a test on the last line before the END that fails skips the END,
and leaves the machine behind it, where the next step finds no line. Returns never lead there, nor
do labels and jumps. Programs do not change their lengths while the machine runs, so this is said of
offsets below those lengths. -/

namespace Keystroke

open Operation List Line Session

variable {len : ProgramRef → Option Nat} {ref : ProgramRef} {front back : List Line} {l : Line}

/-! ## Offsets in front of the end -/

/-- The offset is in front of the end of a program that exists. -/
def Inside (len : ProgramRef → Option Nat) (ref : ProgramRef) (pc : Int) : Prop :=
  ∃ n : Nat, len ref = some n ∧ pc < n

/-- Known targets of jumps are in front of the end. -/
def Aimed (text : Bytes) : Prop :=
  ∀ front l back, text = textOf (front ++ l :: back) → ¬ l.target < 0 →
    l.target.toInt < (text.length : Int)

theorem lt_length_of_mem_lineStarts {n : Nat} {ls : List Line} (h : n ∈ lineStarts (textOf ls)) :
    n < (textOf ls).length := by
  obtain ⟨front, l, back, rfl, rfl⟩ := mem_lineStarts_textOf.1 h
  have hpos : 2 ≤ l.bytes.length := l.two_le_size
  simp only [textOf_append, textOf_cons, length_append]
  omega

/-- A target that was looked up is in front of the end, and moves no line. -/
theorem Aimed.withTarget {strict : Bool} {t : Int32}
    (h : Aimed (textOf (front ++ l :: back ++ [endLine]))) (hc : l.header.cached = true)
    (hlen : (textOf (front ++ l :: back ++ [endLine])).length < 2 ^ 31)
    (ht : t = targetIn strict (front ++ [l]) back l.instr) :
    Aimed (textOf (front ++ l.withTarget t :: back ++ [endLine])) := by
  have hsame : (textOf (front ++ l.withTarget t :: back ++ [endLine])).length
      = (textOf (front ++ l :: back ++ [endLine])).length := by
    simp only [length_textOf, map_append, map_cons, size_withTarget]
  intro front' m back' hsplit hm
  rw [hsame]
  have hmem : m ∈ front ++ l.withTarget t :: back ++ [endLine] := by
    rw [textOf_inj hsplit]
    simp
  have hold (hin : m ∈ front ++ l :: back ++ [endLine]) :
      m.target.toInt < ((textOf (front ++ l :: back ++ [endLine])).length : Int) := by
    obtain ⟨front₀, back₀, hin⟩ := append_of_mem hin
    exact h front₀ m back₀ (by rw [hin]) hm
  simp only [mem_append, mem_cons] at hmem hold
  rcases hmem with (hin | rfl | hin) | hin
  · exact hold (.inl (.inl hin))
  · rw [target_withTarget t hc, ht] at hm ⊢
    obtain ⟨n, hn, htn⟩ := targetIn_mem_lineStarts (by simpa using hlen) hm
    rw [htn]
    exact_mod_cast lt_length_of_mem_lineStarts (by simpa using hn)
  · exact hold (.inl (.inr (.inr hin)))
  · exact hold (.inr hin)

/-! ## Stores -/

/-- The programs have the given lengths, and known targets and labels are in front of their ends. -/
structure Store.Charted (len : ProgramRef → Option Nat) (s : Store) : Prop where
  lengths : ∀ ref, (s.program? ref).map (·.buffer.text.length) = len ref
  aimed : ∀ ref p, s.program? ref = some p → Aimed p.buffer.text
  labels : ∀ l ∈ s.labels, Inside len (.user l.program) l.pc

namespace Store.Charted

variable {s t : Store} {p q : Program}

theorem setProgram (h : s.Charted len) (hp : s.program? ref = some p)
    (hlen : q.buffer.text.length = p.buffer.text.length) (haimed : Aimed q.buffer.text) :
    (s.setProgram ref q).Charted len where
  lengths r := by
    by_cases hr : r = ref
    · subst hr
      rw [program?_setProgram_self q hp, ← h.lengths r, hp]
      simp [hlen]
    · rw [program?_setProgram_ne q hp hr, h.lengths]
  aimed r q' hq' := by
    by_cases hr : r = ref
    · subst hr
      obtain rfl := Option.some.inj ((program?_setProgram_self q hp).symm.trans hq')
      exact haimed
    · rw [program?_setProgram_ne q hp hr] at hq'
      exact h.aimed r q' hq'
  labels := by
    rw [show (s.setProgram ref q).labels = s.labels by cases ref <;> rfl]
    exact h.labels

theorem of_sameTexts (h : s.Charted len) (hsame : s.SameTexts t) : t.Charted len where
  lengths ref := by
    have hlength := congrArg (Option.map length) (hsame.texts ref)
    rw [Option.map_map, Option.map_map] at hlength
    exact hlength.trans (h.lengths ref)
  aimed ref q hq := by
    obtain ⟨p, hp, htext⟩ := hsame.exists_program hq
    exact htext ▸ h.aimed ref p hp
  labels := hsame.labels ▸ h.labels

end Store.Charted

namespace Session

variable {s t u : Session} {line : Instr} {next : Int} {n : Next}

/-! ## Lines -/

/-- Labels, known targets and pending returns are in front of the ends of programs. -/
structure Afoot (len : ProgramRef → Option Nat) (s : Session) : Prop where
  store : s.store.Charted len
  frames : ∀ f ∈ s.calls.frames, Inside len f.ref f.pc

/-! ## Steps -/

/-- The step performed a test on the line in front of the END, and skipped the END. -/
def SkipsEnd (s t : Session) : Prop :=
  step s = .ok () t ∧ t.current = s.current ∧ ∃ p front l, s.store.program? s.current = some p ∧
    p.buffer.text = textOf (front ++ [l, endLine]) ∧ s.pc = (textOf front).length ∧
    l.header.command.isConditional = true ∧ t.pc = p.buffer.text.length

/-- What a step reads: a line of the current program, whose target is in front of the end. -/
theorem Afoot.resolveTarget {size : Nat} {store : Store} (hs : s.Runnable) (h : s.Afoot len)
    (hread : Store.resolveTarget s.current s.pc s.store = .ok (line, size) store) :
    store.Charted len ∧
      (¬ line.operand.target < 0 → Inside len s.current line.operand.target.toInt) ∧
      ∃ p q front l m back, s.store.program? s.current = some p ∧
        p.buffer.text = textOf (front ++ l :: back) ∧ s.pc = (textOf front).length ∧
        line.command = l.header.command ∧ size = l.size ∧ m.size = l.size ∧
        store.program? s.current = some q ∧ q.buffer.text = textOf (front ++ m :: back) := by
  have hfetched := (hs.atPlace hs.place).fetched
  have hinside {p : Program} {pc : Int} (hp : s.store.program? s.current = some p)
      (hpc : pc < (p.buffer.text.length : Int)) : Inside len s.current pc :=
    ⟨_, by rw [← h.store.lengths, hp]; rfl, hpc⟩
  rw [hread] at hfetched
  cases hfetched with
  | @line p front back l hp htext hpc =>
    refine ⟨h.store, fun ht => hinside hp ?_, p, p, front, l, l, back, hp, htext, hpc,
      l.instr_command, rfl, rfl, hp, htext⟩
    exact h.store.aimed _ p hp front l back htext ht
  | @found p front back l t hp hl hpc hc hu ht =>
    obtain ⟨ls, htext, hlen, -⟩ := hs.programs _ p hp
    have haimed := h.store.aimed _ p hp
    rw [hl.text] at hlen haimed
    have haimed' := haimed.withTarget hc hlen ht
    have hlength : (textOf (front ++ l.withTarget t :: back ++ [endLine])).length
        = p.buffer.text.length := by
      rw [hl.text]
      simp only [length_textOf, map_append, map_cons, size_withTarget]
    refine ⟨h.store.setProgram hp hlength haimed', fun hknown => hinside hp ?_, p, _, front, l,
      l.withTarget t, back ++ [endLine], hp, by simpa using hl.text, hpc, l.instr_command,
      rfl, l.size_withTarget t, Store.program?_setProgram_self _ hp, by simp [Program.withText]⟩
    rw [← hlength]
    have htarget := haimed' front (l.withTarget t) (back ++ [endLine]) (by simp)
    rw [target_withTarget t hc] at htarget
    exact htarget hknown

theorem eq_endLine_of_last {text : Bytes} {ls : List Line} (h : text = textOf (front ++ [l]))
    (hls : text = textOf (ls ++ [endLine])) : l = endLine := by
  simpa using (append_inj' (textOf_inj (h.symm.trans hls)) rfl).2

/-- A step leads to an offset in front of the end again, unless it skips the END. -/
theorem Afoot.step (hs : s.Runnable) (h : s.Afoot len) (hstep : step s = .ok () t)
    (hrunning : s.running = true) (ht : t.running = true) :
    t.Afoot len ∧ (Inside len t.current t.pc ∨ s.SkipsEnd t) := by
  have hrun := hstep
  unfold Session.step at hrun
  rw [if_neg (by simpa using hrunning)] at hrun
  split at hrun
  · cases hrun
  next line size store hread =>
  obtain ⟨hstore, htarget, p, q, front, l, m, back, hp, htext, hpc, hcommand, rfl, hsize, hq,
    hqtext⟩ := h.resolveTarget hs hread
  obtain ⟨ls, hls, hlen, -⟩ := hs.programs _ p hp
  -- Only the END has no line behind it.
  have hback : line.command.action? ≠ some .leave → back ≠ [] := by
    rintro haction rfl
    obtain rfl := eq_endLine_of_last htext hls
    exact haction (by rw [hcommand]; rfl)
  have hlength : len s.current = some p.buffer.text.length := by
    rw [← h.store.lengths, hp]
    rfl
  have hplace : Inside len s.current s.pc := by
    refine ⟨_, hlength, ?_⟩
    have hpos : 2 ≤ l.bytes.length := l.two_le_size
    rw [hpc, htext, textOf_append, textOf_cons]
    simp only [length_append]
    omega
  have hnext (hne : back ≠ []) : Inside len s.current (s.pc + l.size) := by
    obtain ⟨r, back, rfl⟩ := exists_cons_of_ne_nil hne
    refine ⟨_, hlength, ?_⟩
    have hpos : 2 ≤ r.bytes.length := r.two_le_size
    rw [hpc, htext, textOf_append, textOf_cons, textOf_cons]
    simp only [length_append, size]
    omega
  have hperform := arrives_perform (s := { s with store := store })
    ⟨hs.calls, hstore.labels, h.frames⟩ hrunning hplace (fun haction => hnext (hback haction))
    htarget
  split at hrun
  · cases hrun
  next n u hline =>
  rw [hline] at hperform
  cases hperform with
  | ok h =>
  obtain ⟨harrives, -⟩ := h
  have hu : u.Afoot len := ⟨hstore.of_sameTexts harrives.store, harrives.frames⟩
  split at hrun
  · next hstop =>
    obtain ⟨-, rfl⟩ := EStateM.Result.ok.inj hrun
    simp [ht] at hstop
  next hgoes =>
  have hinside := harrives.place
  rw [if_pos (by simpa using hgoes)] at hinside
  split at hrun
  · next hskip =>
    obtain ⟨-, rfl⟩ := EStateM.Result.ok.inj hrun
    refine ⟨⟨hu.store, hu.frames⟩, ?_⟩
    obtain ⟨htest, hn, hstore', hcurrent⟩ := harrives.skip hskip
    have hqu : u.store.program? u.current = some q := by
      rw [hstore', hcurrent]
      exact hq
    have hqlen : q.buffer.text.length = p.buffer.text.length := by
      have hlen' := (hu.store.lengths u.current).trans (hcurrent ▸ hlength)
      rw [hqu] at hlen'
      exact Option.some.inj hlen'
    obtain ⟨r, back, rfl⟩ := exists_cons_of_ne_nil <| hback fun haction => by
      rw [Command.isConditional_eq_isTest haction] at htest
      cases htest
    have hland : n.pc + u.skippedSize n.pc = ((textOf (front ++ [m, r])).length : Int) := by
      have hsum : n.pc = ((textOf (front ++ [m])).length : Int) := by
        rw [hn, hpc, ← hsize]
        simp [size]
      have hqtext' : q.buffer.text = textOf ((front ++ [m]) ++ r :: back) := by simpa using hqtext
      rw [hsum, skippedSize_of_text hqu hqtext' (hqlen ▸ hlen)]
      simp [Int.add_assoc]
    cases back with
    | nil =>
      have htext' : p.buffer.text = textOf ((front ++ [l]) ++ [r]) := by simpa using htext
      obtain rfl := eq_endLine_of_last htext' hls
      exact .inr ⟨hstep, hcurrent, p, front, l, hp, htext, hpc, hcommand ▸ htest,
        hland.trans (by rw [← hqlen, hqtext])⟩
    | cons r' back =>
      refine .inl ⟨_, hcurrent ▸ hlength, ?_⟩
      have hpos : 2 ≤ r'.bytes.length := r'.two_le_size
      rw [hland, ← hqlen, hqtext]
      simp only [textOf_append, textOf_cons, textOf_nil, length_append, length_nil]
      omega
  · obtain ⟨-, rfl⟩ := EStateM.Result.ok.inj hrun
    exact ⟨⟨hu.store, hu.frames⟩, .inl hinside⟩

/-! ## Runs -/

/-- The offset is that of a line of a program, which may be the END. -/
def HasLine (s : Session) (ref : ProgramRef) (pc : Int) : Prop :=
  ∃ p front l back, s.store.program? ref = some p ∧ p.buffer.text = textOf (front ++ l :: back) ∧
    pc = (textOf front).length

theorem Afoot.hasLine {pc : Int} (hs : s.Ready) (h : s.Afoot len) (hstands : s.store.Stands ref pc)
    (hinside : Inside len ref pc) : s.HasLine ref pc := by
  obtain ⟨n, hn, hlt⟩ := hinside
  have hlength := (h.store.lengths ref).trans hn
  obtain ⟨p, hp, rfl⟩ := Option.map_eq_some_iff.1 hlength
  obtain ⟨ls, htext, -⟩ := hs.programs ref p hp
  obtain ⟨k, hk, rfl⟩ := hstands p hp
  rw [htext] at hk
  obtain ⟨front, back, hsplit, rfl⟩ := mem_places_textOf.1 hk
  cases back with
  | nil => simp [htext, hsplit] at hlt
  | cons l back => exact ⟨p, front, l, back, hp, by rw [htext, hsplit], rfl⟩

theorem stopped_of_failed {e : Error} (h : step s = .error e t) : t.running = false := by
  unfold step at h
  split at h
  · cases h
  split at h
  · obtain ⟨-, rfl⟩ := EStateM.Result.error.inj h
    rfl
  split at h
  · obtain ⟨-, rfl⟩ := EStateM.Result.error.inj h
    rfl
  split at h
  · cases h
  split at h <;> cases h

/-- By induction on the steps: while the machine runs it has not left the lines, and it has not been
    behind an END before, where no step goes on. -/
theorem afoot_of_goes (hs : s.Runnable) (h : s.Afoot len) (hinside : Inside len s.current s.pc)
    (hrun : Relation.ReflTransGen Goes s t) (ht : t.running = true) :
    t.Afoot len ∧ (Inside len t.current t.pc ∨
      ∃ u, Relation.ReflTransGen Goes s u ∧ u.SkipsEnd t) := by
  induction hrun with
  | refl => exact ⟨h, .inl hinside⟩
  | @tail u v hrun hgo ih =>
    have hu := hs.run hrun
    by_cases hrunning : u.running = true
    swap
    · -- A machine that has stopped does not go on.
      have hstop : step u = .ok () u := by
        unfold step
        rw [if_pos (by simpa using hrunning)]
      rcases hgo with hgo | ⟨e, hgo, -⟩ <;> rw [hstop] at hgo
      · obtain ⟨-, rfl⟩ := EStateM.Result.ok.inj hgo
        exact absurd ht hrunning
      · cases hgo
    obtain ⟨hafoot, -⟩ := ih hrunning
    rcases hgo with hgo | ⟨e, hgo, -⟩
    · obtain ⟨hv, hplace⟩ := hafoot.step hu hgo hrunning ht
      exact ⟨hv, hplace.imp_right fun hskip => ⟨u, hrun, hskip⟩⟩
    · rw [stopped_of_failed hgo] at ht
      cases ht

theorem aimed_of_written {text : Bytes} (h : Written text) : Aimed text := by
  obtain ⟨lines, codes, hcodes, htext, -, hlines⟩ := h
  obtain ⟨ls, hls, hmem⟩ := exists_lines_of_written hcodes fun i hi => (hlines i hi).2.2
  have hwhole : text = textOf (ls ++ [endLine]) := by
    rw [htext, hls, textOf_append]
    rfl
  intro front l back hsplit ht
  have hl : l ∈ ls ++ [endLine] := by simp [← textOf_inj (hsplit.symm.trans hwhole)]
  rcases mem_append.1 hl with hl | hl
  · obtain ⟨i, -, -, hinstr⟩ := hmem l hl
    rw [target, hinstr, Instr.target_readBack] at ht
    exact absurd (by decide) ht
  · rw [mem_singleton.1 hl] at ht
    exact absurd (by decide) ht

/-- While a program runs that was started with no return pending, the machine stands at a line, or
    has just skipped the END behind a test that failed, and all pending returns lead to lines. -/
theorem on_line_while_running
    (hprograms : ∀ ref p, s.store.program? ref = some p → Written p.buffer.text)
    (hlisted : s.store.Listed) (hcalls : s.calls.WellFormed) (hnone : s.calls.frames = [])
    (hcall : Session.call ref s = .ok () t) (hrun : Relation.ReflTransGen Goes t u)
    (hrunning : u.running = true) :
    (u.HasLine u.current u.pc ∨ ∃ v, Relation.ReflTransGen Goes t v ∧ v.SkipsEnd u) ∧
      ∀ f ∈ u.calls.frames, u.HasLine f.ref f.pc := by
  have hready : s.Ready := ready_of_written hprograms hlisted hcalls (by simp [hnone])
  have ht := hready.call hcall
  have hcharted : s.store.Charted fun ref => (s.store.program? ref).map (·.buffer.text.length) := by
    refine ⟨fun _ => rfl, fun ref p hp => aimed_of_written (hprograms ref p hp), fun l hl => ?_⟩
    obtain ⟨p, front, m, back, hp, htext, hpc⟩ := hlisted.exists_line hl
    refine ⟨_, Option.map_eq_some_iff.2 ⟨p, hp, rfl⟩, ?_⟩
    rw [hpc, htext]
    exact_mod_cast lt_length_of_mem_lineStarts (mem_lineStarts_textOf.2 ⟨front, m, back, rfl, rfl⟩)
  unfold call at hcall
  rw [get_bind] at hcall
  cases hp : s.store.program? ref with
  | none =>
    rw [hp] at hcall
    cases hcall
  | some p =>
    rw [hp] at hcall
    obtain ⟨-, rfl⟩ := EStateM.Result.ok.inj hcall
    have hstart : Inside (fun ref => (s.store.program? ref).map (·.buffer.text.length)) ref 0 := by
      obtain ⟨ls, htext, -⟩ := hready.programs ref p hp
      refine ⟨_, Option.map_eq_some_iff.2 ⟨p, hp, rfl⟩, ?_⟩
      rw [htext, textOf_append, length_append]
      have hend : (textOf [endLine]).length = 2 := rfl
      omega
    obtain ⟨hu, hplace⟩ := afoot_of_goes ht ⟨hcharted, by simp [hnone]⟩ hstart hrun hrunning
    have hu' := ht.run hrun
    refine ⟨hplace.imp_left (hu.hasLine hu'.toReady hu'.place), fun f hf => ?_⟩
    exact hu.hasLine hu'.toReady (hu'.frames f hf) (hu.frames f hf)

/-- Behind the line that declares a function, the machine stands at the line that drops a number. -/
theorem on_line_while_running_dropping : ∃ t u, Session.call (.user 0) dropping = .ok () t ∧
    Relation.ReflTransGen Goes t u ∧ u.running = true ∧ u.pc = 3 ∧
    (u.HasLine u.current u.pc ∨ ∃ v, Relation.ReflTransGen Goes t v ∧ v.SkipsEnd u) := by
  obtain ⟨t, hcall⟩ : ∃ t, call (.user 0) dropping = .ok () t := ⟨_, rfl⟩
  obtain ⟨u, hfunc, hrunning, hpc⟩ : ∃ u, step t = .ok () u ∧ u.running = true ∧ u.pc = 3 := by
    cases hcall
    exact ⟨_, rfl, rfl, rfl⟩
  have hrun : Relation.ReflTransGen Goes t u := .single (.inl hfunc)
  exact ⟨t, u, hcall, hrun, hrunning, hpc, (on_line_while_running written_dropping listed_dropping
    (.base rfl) rfl hcall hrun hrunning).1⟩

end Session

end Keystroke
