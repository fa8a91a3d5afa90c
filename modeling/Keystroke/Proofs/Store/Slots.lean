import Keystroke.Compile.Generate
import Keystroke.Proofs.Store.Kept

set_option autoImplicit false

/-! # Equation slots

An edit of the program in one equation slot changes no other program, and it neither frees the slot
nor touches the number of pending returns into it, whether it succeeds or fails. It leaves the label
table or makes it anew (`Store.SlotsBut`). So compiling an expression takes one free slot when it
succeeds and none when it is refused, and spares everything else (`Expr.compile_slots`). -/

namespace Keystroke

variable {s : Store} {k : Nat} {p : Program}

namespace Store

open Operation

/-- The second store has the user's programs of the first, with the labels that it had or those
    that the programs give. -/
structure SameUsers (s0 s : Store) : Prop where
  programs : s.programs = s0.programs
  labels : s.labels = s0.labels ∨ labelTable 0 s0.programs = .ok s.labels

/-- The second store is the first but for one slot, which holds some program with so many pending
    returns. -/
structure SlotsBut (s0 : Store) (k refs : Nat) (s : Store) : Prop extends SameUsers s0 s where
  others : ∀ j, j ≠ k → s.slot? j = s0.slot? j
  own : ∃ p, s.slot? k = some p ∧ p.refs = refs

/-! ## Operations that change no program -/

/-- The operation changes no program and no label. -/
def Inert {α : Type} (x : Edit α) : Prop :=
  ∀ s, (state (x s)).programs = s.programs ∧ (state (x s)).equations = s.equations ∧
    (state (x s)).labels = s.labels

theorem inert_allocate (wanted least held : Nat) : Inert (allocate wanted least held) := by
  intro s
  rcases allocate_cases wanted least held s with ⟨c, hrun, -⟩ | ⟨e, used, hrun, -⟩ <;> rw [hrun] <;>
    exact ⟨rfl, rfl, rfl⟩

theorem inert_edited : Inert edited := by
  intro s
  obtain ⟨edits, hrun⟩ := edited_cases s
  rw [hrun]
  exact ⟨rfl, rfl, rfl⟩

/-! ## Edits of the program in a slot -/

section

variable {α : Type} {s0 : Store} {refs : Nat}

theorem SlotsBut.of_same {t : Store} (h : SlotsBut s0 k refs s)
    (hprograms : t.programs = s.programs) (hequations : t.equations = s.equations)
    (hlabels : t.labels = s.labels) : SlotsBut s0 k refs t := by
  refine ⟨⟨hprograms.trans h.programs, hlabels ▸ h.labels⟩, ?_, ?_⟩
  · intro j hj
    rw [slot?_of_equations hequations, h.others j hj]
  · obtain ⟨p, hp, hr⟩ := h.own
    exact ⟨p, by rw [slot?_of_equations hequations, hp], hr⟩

theorem Inert.leads {x : Edit α} (hx : Inert x) :
    Leads (SlotsBut s0 k refs) x (SlotsBut s0 k refs) := by
  intro s hs
  obtain ⟨hprograms, hequations, hlabels⟩ := hx s
  exact hs.of_same hprograms hequations hlabels

theorem SlotsBut.setProgram (h : SlotsBut s0 k refs s) {q : Program} (hq : q.refs = refs) :
    SlotsBut s0 k refs (s.setProgram (.equation k) q) := by
  obtain ⟨p, hp, -⟩ := h.own
  refine ⟨⟨h.programs, h.labels⟩, ?_, q, program?_setProgram_self q hp, hq⟩
  intro j hj
  rw [← h.others j hj]
  exact program?_setProgram_ne q hp (by simpa using hj)

theorem leads_rebuildLabels_slot :
    Leads (SlotsBut s0 k refs) rebuildLabels (SlotsBut s0 k refs) := by
  intro s hs
  unfold rebuildLabels
  rw [get_bind]
  cases hlabels : labelTable 0 s.programs with
  | error e => exact hs
  | ok labels =>
    rw [hs.programs] at hlabels
    exact ⟨⟨hs.programs, .inr hlabels⟩, hs.others, hs.own⟩

theorem kept_slot : Kept (SlotsBut s0 k refs) (· = refs) (.equation k) where
  read hs hp := by
    obtain ⟨q, hq, hr⟩ := hs.own
    obtain rfl := Option.some.inj (hq.symm.trans hp)
    exact hr
  write hs hq := hs.setProgram hq
  allocate wanted least held := (inert_allocate wanted least held).leads
  rebuildLabels := leads_rebuildLabels_slot
  shiftLabels _ _ _ hs := hs
  edited := inert_edited.leads

theorem cuts_slot {P : Store → Prop} {R : Nat → Prop} : Cuts P R (.equation k) where
  cut h := by cases h
  join h := by cases h
  next h := by cases h

theorem leads_storeInto_slot (c : Code) :
    Leads (SlotsBut s0 k refs) (c.storeInto (.equation k)) (SlotsBut s0 k refs) := by
  refine (leads_ofExcept _).bind fun lines => ?_
  intro s hs
  have hbody := kept_slot.clearProgram.bind (fun _ => kept_slot.storeLines cuts_slot (-1) lines)
    s.openGenerated (hs.of_same rfl rfl rfl)
  simp only [withGeneratedEdit]
  split
  · next hrun =>
    rw [hrun] at hbody
    exact hbody.of_same rfl rfl rfl
  · next hrun =>
    rw [hrun] at hbody
    exact hbody.of_same rfl rfl rfl

end

/-! ## Taking and freeing slots -/

theorem newEquationSlot_slots (s : Store) :
    (∃ (k : Nat) (s' : Store), newEquationSlot s = .ok (.equation k) s' ∧ s.slot? k = none ∧
      s.SlotsBut k 0 s') ∨
    ∃ e s', newEquationSlot s = .error e s' ∧ ∀ j, s'.slot? j = s.slot? j := by
  rcases newEquationSlot_cases s with ⟨p, hrun, hempty, -⟩ | ⟨e, used, hrun, -⟩
  · refine .inl ⟨s.freeSlot, _, hrun, s.slot?_freeSlot, ⟨rfl, .inl rfl⟩, fun j hj => ?_, p,
      program?_host s.freeSlot_lt, hempty.refs⟩
    rw [slot?_host_ne hj, slot?_opened]
  · exact .inr ⟨e, _, hrun, fun _ => rfl⟩

theorem freeEquation_idle (hp : s.slot? k = some p) (hr : p.refs = 0) :
    ∃ s', freeEquation (.equation k) s = .ok () s' ∧ s'.slot? k = none ∧
      ∀ j, j ≠ k → s'.slot? j = s.slot? j := by
  obtain ⟨s', hrun, hs'⟩ := freeEquation_of_idle hp hr
  obtain ⟨hlt, -⟩ := List.getElem?_eq_some_iff.1 (slot?_eq_some_iff.1 hp)
  refine ⟨s', hrun, ?_, ?_⟩
  · rw [slot?_of_getElem?, hs'.equations, Int.toNat_natCast, List.getElem?_set_self hlt]
    rfl
  · intro j hj
    rw [slot?_of_getElem?, slot?_of_getElem?, hs'.equations, Int.toNat_natCast,
      List.getElem?_set_ne hj.symm]

/-- A refusal takes no slot. A crash may leave one in use that was free. -/
def Forgoes (s : Store) (cause : Error) (s' : Store) : Prop :=
  (∀ j, s'.slot? j = s.slot? j) ∨
    cause.isCrash = true ∧ ∃ k, s.slot? k = none ∧ s.SlotsBut k 0 s'

end Store

/-- Compiling an expression takes a slot that was free, or is refused and takes none. -/
theorem Expr.compile_slots (names : NameTable) (e : Expr) (s : Store) :
    Operation.Outcome
      (fun ref s' => ∃ k : Nat, ref = .equation k ∧ s.slot? k = none ∧ s.SlotsBut k 0 s')
      s.Forgoes (e.compile names s) := by
  rcases s.newEquationSlot_slots with ⟨k, s1, hrun, hfree, hs1⟩ | ⟨cause, s1, hrun, hs1⟩
  · have hstore := Store.leads_storeInto_slot (e.program names) s1 hs1
    cases hinto : (e.program names).storeInto (.equation k) s1 with
    | ok _ s2 =>
      rw [hinto] at hstore
      simp only [compile, bind, EStateM.bind, hrun, compileInto, hinto]
      exact .ok ⟨k, rfl, hfree, hstore⟩
    | error cause s2 =>
      rw [hinto] at hstore
      change s.SlotsBut k 0 s2 at hstore
      obtain ⟨p, hp, hr⟩ := hstore.own
      obtain ⟨s3, hgone, hnone, hothers⟩ := Store.freeEquation_idle hp hr
      simp only [compile, bind, EStateM.bind, hrun, compileInto, hinto, hgone]
      split
      · next hcrash => exact .error (.inr ⟨hcrash, k, hfree, hstore⟩)
      · refine .error (.inl fun j => ?_)
        by_cases hj : j = k
        · rw [hj, hnone, hfree]
        · rw [hothers j hj, hstore.others j hj]
  · simp only [compile, bind, EStateM.bind, hrun]
    exact .error (.inl hs1)

end Keystroke
