import Keystroke.Proofs.Store.Slots

set_option autoImplicit false

/-! # Counts of pending returns

Of every program the store notes how many returns into it are pending; a free slot has none. Only
`retain` and `release` change that: a slot is taken with no returns and freed when there are none,
and edits of programs leave the counts of all slots alone (`Request.sameCounts_run`). -/

namespace Keystroke

variable {s : Store} {ref : ProgramRef}

open Operation

namespace Store

/-- The programs whose pending returns are looked at: those in slots, and the user's if `users`
    is set. -/
def Noted (users : Bool) : ProgramRef → Prop
  | .equation _ => True
  | .user _ => users = true
  | _ => False

/-- These programs have as many pending returns in the second store as in the first. -/
def SameCounts (users : Bool) (s0 s : Store) : Prop :=
  ∀ ref, Noted users ref → s.refCount ref = s0.refCount ref

theorem refCount_of_some {p : Program} (h : s.program? ref = some p) : s.refCount ref = p.refs := by
  rw [refCount, h]

theorem refCount_of_none (h : s.program? ref = none) : s.refCount ref = 0 := by
  rw [refCount, h]

/-- The number of returns into the program at an index. -/
def refsAt (ps : List Program) (k : Nat) : Nat := ((ps[k]?).map (·.refs)).getD 0

theorem refCount_user (k : Nat) : s.refCount (.user k) = refsAt s.programs k := by
  rw [refCount, program?, at?, if_neg (by omega), Int.toNat_natCast, refsAt]
  cases s.programs[k]? <;> rfl

namespace SameCounts

variable {s0 s t : Store} {ref : ProgramRef} {p q : Program} {k refs : Nat} {users : Bool}

theorem refl (s : Store) : s.SameCounts users s := fun _ _ => rfl

theorem trans (h : s0.SameCounts users s) (h' : s.SameCounts users t) : s0.SameCounts users t :=
  fun ref hr => (h' ref hr).trans (h ref hr)

theorem of_same (hp : t.programs = s.programs) (he : t.equations = s.equations) :
    s.SameCounts users t := by
  intro ref _
  cases ref <;> simp only [refCount, program?, hp, he]

/-- A program with a negative number does not exist, so it is enough to look at the others. -/
theorem of_nat (hslots : ∀ k : Nat, t.refCount (.equation k) = s.refCount (.equation k))
    (husers : users = true → ∀ k, refsAt t.programs k = refsAt s.programs k) :
    s.SameCounts users t := by
  intro ref href
  cases ref with
  | equation i | user i =>
    by_cases hi : 0 ≤ i
    · obtain ⟨k, rfl⟩ := Int.eq_ofNat_of_zero_le hi
      first
      | exact hslots k
      | rw [refCount_user, refCount_user, husers href]
    · simp [refCount, program?, at?, Int.not_le.1 hi]
  | none | solver | integrator => exact href.elim

theorem of_slot? (h : ∀ j, j ≠ k → t.slot? j = s.slot? j)
    (hk : t.refCount (.equation k) = s.refCount (.equation k)) : s.SameCounts false t := by
  refine of_nat (fun j => ?_) (by simp)
  by_cases hj : j = k
  · rw [hj, hk]
  · have hslot : t.program? (.equation j) = s.program? (.equation j) := h j hj
    rw [refCount, refCount, hslot]

theorem of_slot?_eq (h : ∀ j, t.slot? j = s.slot? j) : s.SameCounts false t := by
  refine of_nat (fun j => ?_) (by simp)
  rw [refCount, refCount, show t.program? (.equation j) = s.program? (.equation j) from h j]

theorem of_slotsBut (h : s.SlotsBut k refs t) (hk : s.refCount (.equation k) = refs) :
    s.SameCounts false t := by
  obtain ⟨p, hp, hr⟩ := h.own
  exact of_slot? h.others (by rw [refCount_of_some hp, hr, hk])

theorem setProgram (hp : s.program? ref = some p) (hq : q.refs = p.refs) :
    s.SameCounts users (s.setProgram ref q) := by
  intro r _
  by_cases href : r = ref
  · subst href
    rw [refCount_of_some (program?_setProgram_self q hp), refCount_of_some hp, hq]
  · rw [refCount, refCount, program?_setProgram_ne q hp href]

end SameCounts

/-! ## Edits -/

section

variable {α : Type} {s0 s : Store} {users : Bool} {k : Nat}

theorem leads_sameCounts {x : Edit α} (h : ∀ s, (state (x s)).programs = s.programs ∧
    (state (x s)).equations = s.equations) : Leads (s0.SameCounts users) x (s0.SameCounts users) :=
  fun s hs => hs.trans (.of_same (h s).1 (h s).2)

theorem leads_allocate_sameCounts (wanted least held : Nat) :
    Leads (s0.SameCounts users) (allocate wanted least held) (s0.SameCounts users) :=
  leads_sameCounts fun s => (inert_allocate wanted least held s).imp_right (·.1)

theorem leads_edited_sameCounts : Leads (s0.SameCounts users) edited (s0.SameCounts users) :=
  leads_sameCounts fun s => (inert_edited s).imp_right (·.1)

theorem leads_rebuildLabels_sameCounts :
    Leads (s0.SameCounts users) rebuildLabels (s0.SameCounts users) := by
  refine leads_sameCounts fun s => ?_
  unfold rebuildLabels
  rw [get_bind]
  cases labelTable 0 s.programs <;> exact ⟨rfl, rfl⟩

theorem kept_sameCounts (href : ref = .user k ∨ ref = .equation k) :
    Kept (s0.SameCounts users) (fun n => Noted users ref → n = s0.refCount ref) ref where
  read hs hp hr := by rw [← hs ref hr, refCount_of_some hp]
  write {s q} hs hq := by
    -- What is written is the program at the index, if there is one.
    refine .of_nat (fun j => ?_) fun hu j => ?_
    · rcases href with rfl | rfl
      · exact hs (.equation j) trivial
      · have hj := hs (.equation j) trivial
        have hk := hq trivial
        simp only [refCount, program?, at?, setProgram] at hj hk ⊢
        grind
    · rcases href with rfl | rfl
      · have hj := hs (.user j) hu
        have hk := hq hu
        simp only [refCount_user, setProgram, refsAt] at hj hk ⊢
        grind
      · rw [← refCount_user, ← refCount_user]
        exact hs (.user j) hu
  allocate := leads_allocate_sameCounts
  rebuildLabels := leads_rebuildLabels_sameCounts
  shiftLabels _ _ := leads_sameCounts fun _ => by cases ref <;> exact ⟨rfl, rfl⟩
  edited := leads_edited_sameCounts

/-- No return is pending into a program of the user behind the one that the reference names. -/
def IdleBehind (s : Store) (ref : ProgramRef) : Prop :=
  ∀ k j : Nat, ref = .user k → k < j → s.refCount (.user j) = 0

theorem refsAt_cut {ps : List Program} {c : Nat → Nat} {q r : Program}
    (hps : ∀ j, refsAt ps j = c j) (hq : q.refs = c k) (hr : r.refs = 0)
    (hidle : ∀ j, k < j → c j = 0) (j : Nat) :
    refsAt ((ps.set k q).take (k + 1) ++ r :: (ps.set k q).drop (k + 1)) j = c j := by
  unfold refsAt at *
  have hset : ∀ j, (((ps.set k q)[j]?).map (·.refs)).getD 0 = c j := by grind
  rw [List.getElem?_append, List.length_take]
  split
  · rw [List.getElem?_take_of_lt (by omega)]
    exact hset j
  · -- The programs behind it have other numbers now, but no returns.
    have hzero : c j = 0 := by grind
    rw [hzero, List.getElem?_cons]
    split
    · exact hr
    · rw [List.getElem?_drop, hset]
      exact hidle _ (by omega)

/-- Counts go with the programs when one is cut or joined, so they stay right if the programs that
    get other numbers have none. -/
theorem cuts_sameCounts (href : ref = .user k ∨ ref = .equation k)
    (hidle : users = true → s0.IdleBehind ref) :
    Cuts (s0.SameCounts users) (fun n => Noted users ref → n = s0.refCount ref) ref := by
  rcases href with rfl | rfl
  · have hcounts {s : Store} (hu : users = true) (hs : s0.SameCounts users s) (j : Nat) :
        refsAt s.programs j = refsAt s0.programs j := by
      simpa only [refCount_user] using hs (.user j) hu
    have hzero (hu : users = true) (j : Nat) (hj : k < j) : refsAt s0.programs j = 0 := by
      simpa only [refCount_user] using hidle hu k j rfl hj
    refine ⟨fun hi hs hq hr => ?_, fun hi hs => ?_, fun hi => ?_⟩ <;>
      obtain rfl := ProgramRef.user.inj hi
    · refine .of_nat (fun j => hs (.equation j) trivial) fun hu => ?_
      exact refsAt_cut (hcounts hu hs) (refCount_user k ▸ hq hu) hr (hzero hu)
    · refine .of_nat (fun j => hs (.equation j) trivial) fun hu j => ?_
      have hps := hcounts hu hs
      have hidle := hzero hu
      simp only [refsAt, Int.toNat_natCast] at hps hidle ⊢
      grind
    · exact (kept_sameCounts (.inl rfl)).invalidate true
  · exact cuts_slot

/-- An operation on one program, which keeps what the parts of its edits keep, keeps all counts. -/
theorem sameCounts_of_ref {x : ProgramRef → Edit α}
    (hnone : ∀ {ref}, s.program? ref = none → state (x ref s) = s) (ref : ProgramRef)
    (hx : ∀ {k : Nat}, ref = .user k ∨ ref = .equation k → s.SameCounts users (state (x ref s))) :
    s.SameCounts users (state (x ref s)) := by
  cases hp : s.program? ref with
  | none =>
    rw [hnone hp]
    exact .refl s
  | some p =>
    cases ref with
    | user i =>
      obtain ⟨k, rfl⟩ := Int.eq_ofNat_of_zero_le (program?_user_eq_some_iff.1 hp).1
      exact hx (.inl rfl)
    | equation i =>
      obtain ⟨k, rfl⟩ := Int.eq_ofNat_of_zero_le (program?_equation_eq_some_iff.1 hp).1
      exact hx (.inr rfl)
    | none | solver | integrator => cases hp

section

variable (pc : Int) (line : Instr) (hidle : users = true → line.command = .endLine → s.IdleBehind
  ref)

include hidle

theorem sameCounts_insert : s.SameCounts users (state (insert ref pc line s)) :=
  sameCounts_of_ref (x := fun ref => insert ref pc line)
    (fun h => by rw [insert_of_none h]; rfl) ref
    fun href => (kept_sameCounts href).insert pc line
      (fun hend => cuts_sameCounts href fun hu => hidle hu hend) s (.refl s)

theorem sameCounts_insertAfter : s.SameCounts users (state (insertAfter ref pc line s)) :=
  sameCounts_of_ref (x := fun ref => insertAfter ref pc line)
    (fun h => by rw [insertAfter_of_none h]; rfl) ref
    fun href => (kept_sameCounts href).insertAfter pc line
      (fun hend => cuts_sameCounts href fun hu => hidle hu hend) s (.refl s)

end

theorem sameCounts_delete (pc : Int) (hidle : users = true → ∀ {p hd}, s.program? ref = some p →
      headerAt? p.buffer.text pc = some hd → hd.command = .endLine → s.IdleBehind ref) :
    s.SameCounts users (state (delete ref pc s)) :=
  sameCounts_of_ref (x := fun ref => delete ref pc) (fun h => by rw [delete_of_none h]; rfl) ref
    fun href => (kept_sameCounts href).delete (fun _ => leads_sameCounts fun _ => ⟨rfl, rfl⟩)
      (fun hp hhd hend => cuts_sameCounts href fun hu => hidle hu hp hhd hend) (.refl s)

theorem sameCounts_clearProgram (ref : ProgramRef) :
    s.SameCounts users (state (clearProgram ref s)) :=
  sameCounts_of_ref (fun h => by rw [clearProgram_of_none h]; rfl) ref
    fun href => (kept_sameCounts href).clearProgram s (.refl s)

theorem sameCounts_invalidate (ref : ProgramRef) (force : Bool) :
    s.SameCounts users (state (invalidate ref force s)) :=
  sameCounts_of_ref (x := fun ref => invalidate ref force)
    (fun h => by rw [invalidate, get_bind, h]; rfl) ref
    fun href => (kept_sameCounts href).invalidate force s (.refl s)

theorem sameCounts_newProgram : s.SameCounts users (state (newProgram s)) := by
  have hcreate (count : Nat) :
      Leads (s.SameCounts users) (newProgram.create count) (s.SameCounts users) := by
    unfold newProgram.create emptyProgram
    simp only [bind_assoc, pure_bind]
    refine (leads_newBuffer leads_allocate_sameCounts _).bind fun b => ?_
    refine Leads.bind (fun t ht => ht.trans ?_) fun _ => ?_
    · refine .of_nat (fun _ => rfl) fun _ j => ?_
      simp only [refsAt, modify, modifyGet, MonadStateOf.modifyGet, EStateM.modifyGet, state]
      grind
    · exact leads_rebuildLabels_sameCounts.bind fun _ => leads_edited_sameCounts.bind fun _ =>
        .pure _
  unfold newProgram
  rw [get_bind]
  cases s.programs.getLast? with
  | none => exact hcreate _ s (.refl s)
  | some last =>
    dsimp only
    split
    · exact .refl s
    · exact hcreate _ s (.refl s)

theorem sameCounts_invalidateAll (refs : List ProgramRef) :
    s.SameCounts users (state (invalidateAll refs s)) := by
  induction refs generalizing s with
  | nil => exact .refl s
  | cons ref rest ih =>
    have hfirst : s.SameCounts users (state (invalidate ref true s)) :=
      sameCounts_invalidate ref true
    unfold invalidateAll
    cases hrun : invalidate ref true s with
    | ok _ t =>
      rw [hrun] at hfirst
      rw [bind_ok hrun]
      exact hfirst.trans ih
    | error e t =>
      rw [hrun] at hfirst
      rw [bind_error hrun]
      exact hfirst

theorem sameCounts_newEquationSlot : s.SameCounts false (state (newEquationSlot s)) := by
  rcases newEquationSlot_slots s with ⟨k, t, hrun, hfree, ht⟩ | ⟨e, t, hrun, ht⟩
  · rw [hrun]
    exact .of_slotsBut ht (refCount_of_none hfree)
  · rw [hrun]
    exact .of_slot?_eq ht

theorem sameCounts_freeEquation (ref : ProgramRef) :
    s.SameCounts false (state (freeEquation ref s)) := by
  cases ref with
  | equation i =>
    cases hp : s.program? (.equation i) with
    | none =>
      rw [freeEquation_of_none hp]
      exact .refl s
    | some p =>
      obtain ⟨hi, -⟩ := program?_equation_eq_some_iff.1 hp
      obtain ⟨k, rfl⟩ := Int.eq_ofNat_of_zero_le hi
      -- A slot that can be freed had no return noted, like the free slot that it becomes.
      by_cases hr : p.refs = 0
      · obtain ⟨t, hrun, hnone, hothers⟩ := freeEquation_idle hp hr
        rw [hrun]
        exact .of_slot? hothers (by rw [state, refCount_of_none hnone, refCount_of_some hp, hr])
      · rw [freeEquation_busy hp hr]
        exact .refl s
  | user i | none | solver | integrator => exact .refl s

theorem resolveTarget_state (ref : ProgramRef) (pc : Int) (s : Store) :
    state (resolveTarget ref pc s) = s ∨ ∃ p q, s.program? ref = some p ∧ q.refs = p.refs ∧
      state (resolveTarget ref pc s) = s.setProgram ref q := by
  cases hp : s.program? ref with
  | none =>
    rw [resolveTarget_of_none hp]
    exact .inl rfl
  | some p =>
    unfold resolveTarget
    rw [bind_ok (getProgram_of_some hp)]
    cases decodeAt p.buffer.text pc with
    | error e => exact .inl rfl
    | ok read =>
      obtain ⟨line, size⟩ := read
      simp only [Except.mapError]
      rw [bind_ok (Edit.ofExcept_ok _)]
      split
      · exact .inl rfl
      · rw [get_bind]
        generalize (if (line.command = .gtol || line.command = .xeql) = true then
          (lineOffset p.buffer.text line.operand.num.toInt).map Int32.ofInt
          else s.findLocal ref (pc + size) line.operand) = target?
        cases target? with
        | error e => exact .inl rfl
        | ok target =>
          rw [bind_ok (Edit.ofExcept_ok target)]
          cases writeTarget p.buffer.text pc.toNat target with
          | error e => exact .inl rfl
          | ok text => exact .inr ⟨p, p.withText text false, rfl, rfl, rfl⟩

theorem sameCounts_resolveTarget (ref : ProgramRef) (pc : Int) :
    s.SameCounts users (state (resolveTarget ref pc s)) := by
  rcases resolveTarget_state ref pc s with hsame | ⟨p, q, hp, hq, hset⟩
  · rw [hsame]
    exact .refl s
  · rw [hset]
    exact .setProgram hp hq

theorem resolveTarget_program? {pc : Int} {r : Instr × Nat} {t : Store}
    (h : resolveTarget ref pc s = .ok r t) : ∃ p, t.program? ref = some p := by
  cases hp : s.program? ref with
  | none => exact absurd ((resolveTarget_of_none hp).symm.trans h) (by simp)
  | some p =>
    rcases resolveTarget_state ref pc s with hsame | ⟨p', q, hp', -, hset⟩
    · rw [h] at hsame
      obtain rfl : t = s := hsame
      exact ⟨p, hp⟩
    · rw [h] at hset
      obtain rfl : t = s.setProgram ref q := hset
      exact ⟨q, program?_setProgram_self q hp'⟩

theorem sameCounts_endBulkLoad : s.SameCounts users (state (endBulkLoad s)) := by
  have hforget (refs : List ProgramRef) :
      Leads (s.SameCounts users) (invalidateAll refs) (s.SameCounts users) :=
    fun t ht => ht.trans (sameCounts_invalidateAll refs)
  unfold endBulkLoad
  rw [get_bind]
  split
  · exact .refl s
  · rw [set_bind]
    split
    · exact leads_rebuildLabels_sameCounts.bind (fun _ => (hforget _).bind fun _ => hforget _) _
        (.of_same rfl rfl)
    · exact .of_same rfl rfl

end

end Store

theorem Request.sameCounts_run (r : Request) (s : Store) :
    s.SameCounts false (state (r.run s)) := by
  have hreply {α : Type} {x : Edit α} {f : α → Reply} (hx : s.SameCounts false (state (x s))) :
      s.SameCounts false (state ((do return f (← x) : Edit Reply) s)) :=
    Leads.bind (P := (· = s)) (by rintro _ rfl; exact hx) (fun _ => .pure _) s rfl
  cases r with
  | newProgram => exact hreply Store.sameCounts_newProgram
  | newEquationSlot => exact hreply Store.sameCounts_newEquationSlot
  | freeEquation ref => exact hreply (Store.sameCounts_freeEquation ref)
  | insert ref pc line => exact hreply (Store.sameCounts_insert pc line (by simp))
  | insertAfter ref pc line =>
    exact hreply (Store.sameCounts_insertAfter pc line (by simp))
  | delete ref pc => exact hreply (Store.sameCounts_delete pc (by simp))
  | clearProgram ref => exact hreply (Store.sameCounts_clearProgram ref)
  | beginBulkLoad => exact .of_same rfl rfl
  | endBulkLoad => exact hreply Store.sameCounts_endBulkLoad
  | openGenerated => exact .of_same rfl rfl
  | closeGenerated => exact .of_same rfl rfl
  | invalidate ref force =>
    exact hreply (Store.sameCounts_invalidate ref force)
  | resolve ref pc =>
    exact hreply (Store.sameCounts_resolveTarget ref pc)

end Keystroke
