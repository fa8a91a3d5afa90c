import Keystroke.Compile.Equation
import Keystroke.Proofs.Machine.Levels
import Keystroke.Proofs.Store.Slots

set_option autoImplicit false

/-! # Slots and their owners

Equations share the slots of one store. A slot belongs to the equation that it was taken for until
it is freed. After any history of compiling, solving and freeing, with pending returns noted and
taken back in between, each equation keeps references to exactly the slots that belong to it
(`Registry.Sound`). So freeing an equation frees no other slot, and it frees every idle slot of the
equation as long as the equation has a program of its own (`Registry.free_releases`). -/

namespace Keystroke

variable {p : Program} {e : Equation} {refused : List Nat}

open Operation List

variable {s s' : Store} {k : Nat} {refs : List ProgramRef} {ref : ProgramRef}

namespace Store

/-! ## Freeing slots -/

/-- A return into the program is pending. -/
def busy (s : Store) (ref : ProgramRef) : Bool := s.refCount ref ≠ 0

/-- The reference names a slot that is taken. -/
def Taken (s : Store) (ref : ProgramRef) : Prop :=
  ∃ (k : Nat) (p : Program), ref = .equation k ∧ s.slot? k = some p

/-- The second store is the first without the idle slots among these. -/
def Freed (refs : List ProgramRef) (s s' : Store) : Prop :=
  ∀ k : Nat, s'.slot? k =
    if .equation k ∈ refs ∧ s.busy (.equation k) = false then none else s.slot? k

theorem busy_of_slot? (hp : s.slot? k = some p) : s.busy (.equation k) = decide (p.refs ≠ 0) := by
  rw [busy, refCount, show s.program? (.equation k) = some p from hp]

theorem busy_congr (h : s'.slot? k = s.slot? k) : s'.busy (.equation k) = s.busy (.equation k) := by
  rw [busy, busy, refCount, refCount,
    show s'.program? (.equation k) = s.program? (.equation k) from h]

theorem Freed.slot?_of_not_mem (h : Freed refs s s') (hk : .equation k ∉ refs) :
    s'.slot? k = s.slot? k := by
  rw [h k, if_neg (fun hc => hk hc.1)]

theorem Freed.append {a b : List ProgramRef} {s'' : Store} (ha : Freed a s s') (hb : Freed b s' s'')
    (hdisjoint : ∀ ref ∈ b, ref ∉ a) : Freed (a ++ b) s s'' := by
  intro k
  by_cases hka : .equation k ∈ a
  · have hkb : .equation k ∉ b := fun hkb => hdisjoint _ hkb hka
    rw [hb.slot?_of_not_mem hkb, ha k]
    simp [hka]
  · rw [hb k, ha.slot?_of_not_mem hka, busy_congr (ha.slot?_of_not_mem hka)]
    simp [hka]

theorem freeEquation_freed (h : s.Taken ref) :
    (s.busy ref = false ∧ ∃ s', freeEquation ref s = .ok () s' ∧ Freed [ref] s s') ∨
    (s.busy ref = true ∧ ∃ cause, freeEquation ref s = .error cause s ∧ Freed [ref] s s) := by
  obtain ⟨k, p, rfl, hp⟩ := h
  have hbusy := busy_of_slot? hp
  by_cases hr : p.refs = 0
  · have hidle : s.busy (.equation k) = false := by simp [hbusy, hr]
    obtain ⟨s', hrun, hnone, hothers⟩ := freeEquation_idle hp hr
    refine .inl ⟨hidle, s', hrun, ?_⟩
    intro j
    by_cases hj : j = k
    · simp [hj, hnone, hidle]
    · simp [hothers j hj, hj]
  · have hpending : s.busy (.equation k) = true := by simp [hbusy, hr]
    refine .inr ⟨hpending, _, freeEquation_busy hp hr, ?_⟩
    intro j
    by_cases hj : j = k
    · simp [hj, hpending]
    · simp [hj]

theorem isSome_slot?_notes (h : s.Notes s') (hk : (s.slot? k).isSome) : (s'.slot? k).isSome := by
  rcases h with rfl | ⟨ref, p, n, hp, rfl⟩
  · exact hk
  by_cases href : ProgramRef.equation k = ref
  · rw [slot?, href, program?_setProgram_self _ hp]
    rfl
  · rwa [slot?, program?_setProgram_ne _ hp href]

theorem Taken.of_freed (h : Freed refs s s') (ht : s.Taken ref) (hne : ref ∉ refs) :
    s'.Taken ref ∧ s'.busy ref = s.busy ref := by
  obtain ⟨k, p, rfl, hp⟩ := ht
  have hsame := h.slot?_of_not_mem hne
  exact ⟨⟨k, p, rfl, hsame.trans hp⟩, busy_congr hsame⟩

end Store

namespace Equation

open Store

/-- The references to slots that the equation keeps, in the order in which they are freed. -/
def slots (e : Equation) : List ProgramRef :=
  e.solutions.map (·.2) ++ if e.program = .none then [] else [e.program]

/-- Freeing solutions keeps those into which a return is pending, and fails when it keeps any. -/
theorem freeSolutions_freed (m : Assoc Bytes ProgramRef) (s : Store)
    (hnodup : (m.map (·.2)).Nodup) (htaken : ∀ ref ∈ m.map (·.2), s.Taken ref) :
    ∃ kept errors s', freeSolutions m s = (kept, errors, s') ∧
      kept.map (·.2) = (m.map (·.2)).filter s.busy ∧ (errors = [] ↔ kept = []) ∧
      Freed (m.map (·.2)) s s' := by
  induction m generalizing s with
  | nil => exact ⟨[], [], s, rfl, rfl, by simp, fun k => by simp⟩
  | cons solution rest ih =>
    obtain ⟨name, ref⟩ := solution
    rw [map_cons, nodup_cons] at hnodup
    rw [map_cons, forall_mem_cons] at htaken
    have hdisjoint : ∀ other ∈ rest.map (·.2), other ∉ [ref] := by
      intro other hmem heq
      rw [mem_singleton] at heq
      exact hnodup.1 (heq ▸ hmem)
    -- what freeing the first slot leaves of the others
    have hrest {s' : Store} (hfreed : Freed [ref] s s') :
        (∀ other ∈ rest.map (·.2), s'.Taken other) ∧
          (rest.map (·.2)).filter s'.busy = (rest.map (·.2)).filter s.busy := by
      refine ⟨fun other hmem => ((htaken.2 other hmem).of_freed hfreed (hdisjoint other hmem)).1,
        ?_⟩
      exact filter_congr fun other hmem =>
        ((htaken.2 other hmem).of_freed hfreed (hdisjoint other hmem)).2
    rcases freeEquation_freed htaken.1 with ⟨hidle, s1, hrun, hfreed⟩ | ⟨hbusy, cause, hrun, hfreed⟩
    · obtain ⟨htaken1, hfilter⟩ := hrest hfreed
      obtain ⟨kept, errors, s2, hfree, hkept, herrors, hfreed2⟩ := ih s1 hnodup.2 htaken1
      refine ⟨kept, errors, s2, ?_, ?_, herrors, hfreed.append hfreed2 hdisjoint⟩
      · simp only [freeSolutions, hrun, hfree]
      · rw [map_cons, filter_cons_of_neg (by simp [hidle]), hkept, hfilter]
    · obtain ⟨htaken1, hfilter⟩ := hrest hfreed
      obtain ⟨kept, errors, s2, hfree, hkept, herrors, hfreed2⟩ := ih s hnodup.2 htaken1
      refine ⟨(name, ref) :: kept, cause :: errors, s2, ?_, ?_, by simp,
        hfreed.append hfreed2 hdisjoint⟩
      · simp only [freeSolutions, hrun, hfree]
      · rw [map_cons, map_cons, filter_cons_of_pos hbusy, hkept]

/-- Freeing a compiled equation frees its idle slots and keeps the others. It fails when it keeps
    any. -/
theorem free_freed (hprogram : e.program ≠ .none) (hnodup : e.slots.Nodup)
    (htaken : ∀ ref ∈ e.slots, s.Taken ref) :
    ∃ e' errors s', e.free s = (e', errors, s') ∧ e'.slots = e.slots.filter s.busy ∧
      (errors = [] ↔ e'.slots = []) ∧ Freed e.slots s s' := by
  have hslots : e.slots = e.solutions.map (·.2) ++ [e.program] := by
    rw [slots, if_neg hprogram]
  rw [hslots] at hnodup htaken ⊢
  obtain ⟨hnodup', -, hne⟩ := nodup_append.1 hnodup
  have hlast : ∀ ref ∈ [e.program], ref ∉ e.solutions.map (·.2) := by
    intro ref hmem hin
    exact hne ref hin ref hmem rfl
  obtain ⟨kept, errors, s1, hfree, hkept, herrors, hfreed⟩ := freeSolutions_freed e.solutions s
    hnodup' (fun ref hmem => htaken ref (mem_append_left _ hmem))
  obtain ⟨htaken1, hbusy1⟩ := (htaken e.program (by simp)).of_freed hfreed
    (hlast e.program (by simp))
  rcases freeEquation_freed htaken1 with ⟨hidle, s2, hrun, hfreed2⟩ | ⟨hbusy, cause, hrun, hfreed2⟩
  · refine ⟨{ e with solutions := kept, program := .none }, errors, s2, ?_, ?_, ?_,
      hfreed.append hfreed2 hlast⟩
    · simp only [free, if_neg hprogram, hfree, hrun]
    · simp [slots, hkept, filter_append, ← hbusy1, hidle]
    · simp [slots, herrors]
  · refine ⟨{ e with solutions := kept }, errors ++ [cause], s1, ?_, ?_, ?_,
      hfreed.append hfreed2 hlast⟩
    · simp only [free, if_neg hprogram, hfree, hrun]
    · simp [slots, hkept, hprogram, filter_append, ← hbusy1, hbusy]
    · simp [slots, hprogram]

/-- An equation without a program of its own is left as it is, whatever else it keeps. -/
theorem free_of_program_eq_none (s : Store) (h : e.program = .none) :
    e.free s = (e, [], s) := if_pos h

/-- Work for the equation has taken a slot that was free, which the equation keeps, or none. -/
inductive Takes (e : Equation) (s : Store) : Equation → Store → Prop
  | slot {k : Nat} {e' : Equation} {s' : Store} (hslots : e'.slots.Perm (.equation k :: e.slots))
    (hprogram : e'.program ≠ .none) (hfree : s.slot? k = none) (hs : s.SlotsBut k 0 s') :
    Takes e s e' s'
  | none {s' : Store} (hs : ∀ j, s'.slot? j = s.slot? j) : Takes e s e s'

/-- The slot of a further solution joins those of the equation. -/
theorem slots_put {name : Bytes} (hprogram : e.program ≠ .none)
    (hfind : Assoc.find? e.solutions name = none) (ref : ProgramRef) :
    { e with solutions := Assoc.put e.solutions name ref }.slots.Perm (ref :: e.slots) := by
  simp only [slots, if_neg hprogram, Assoc.put_of_find?_eq_none hfind, map_append,
    map_cons, map_nil, append_assoc, cons_append, nil_append]
  exact perm_middle

theorem compile_takes (names : NameTable) (e : Equation) (s : Store) :
    Outcome (e.Takes s) s.Forgoes (e.compile names s) := by
  unfold compile
  by_cases hprogram : e.program = .none
  · rw [if_neg (by simp [hprogram])]
    refine (Expr.compile_slots names e.tree s).bind ?_
    rintro _ s' ⟨k, rfl, hfree, hs'⟩
    refine .ok (.slot ?_ (by simp) hfree hs')
    simp [slots, hprogram]
  · rw [if_pos hprogram]
    exact .ok (.none fun _ => rfl)

theorem solveFor_takes (name : Bytes) (e : Equation) (s : Store) :
    Outcome (fun r s' => e.Takes s r.2 s') s.Forgoes (e.solveFor name s) := by
  unfold solveFor
  by_cases hprogram : e.program = .none
  · rw [if_pos hprogram]
    exact .error (.inl fun _ => rfl)
  rw [if_neg hprogram]
  cases hfind : Assoc.find? e.solutions name with
  | some ref => exact .ok (.none fun _ => rfl)
  | none =>
    cases htree : e.tree.isolate name with
    | error cause => exact .error (.inl fun _ => rfl)
    | ok tree =>
      refine (Expr.compile_slots e.names tree s).bind ?_
      rintro _ s' ⟨k, rfl, hfree, hs'⟩
      exact .ok (.slot (slots_put hprogram hfind _) hprogram hfree hs')

end Equation

/-! ## Histories -/

/-- Equations that share a store, with a record of what has been done for them. -/
structure Registry where
  store : Store
  equations : List Equation
  /-- The equation that a slot belongs to. -/
  owner : Nat → Option Nat := fun _ => none
  /-- The equations that could not be freed at some time. -/
  refused : List Nat := []

namespace Registry

variable {r : Registry}

open Store

/-- What is done with the equations, by their number, and with pending returns. -/
inductive Action where
  | compile (i : Nat) (names : NameTable)
  | solveFor (i : Nat) (name : Bytes)
  | free (i : Nat)
  | retain (ref : ProgramRef)
  | release (ref : ProgramRef)

/-- The registry after work for an equation, which owns the slots that have been taken. -/
def update (r : Registry) (i : Nat) (e : Equation) (s : Store) : Registry :=
  { r with
    store := s
    equations := r.equations.set i e
    owner := fun k =>
      if (s.slot? k).isNone then none
      else if (r.store.slot? k).isNone then some i
      else r.owner k }

/-- Work for an equation, which keeps what it had when it is refused. What crashes ends the program,
    so it is no part of a history. -/
def attempt (r : Registry) (i : Nat) (work : Equation → Edit Equation) : Registry :=
  match r.equations[i]? with
  | none => r
  | some e =>
    match work e r.store with
    | .ok e' s => r.update i e' s
    | .error cause s => if cause.isCrash then r else r.update i e s

/-- One action. -/
def act (r : Registry) : Action → Registry
  | .compile i names => r.attempt i (·.compile names)
  | .solveFor i name => r.attempt i fun e => do return (← e.solveFor name).2
  | .free i =>
    match r.equations[i]? with
    | none => r
    | some e =>
      let (e', errors, s) := e.free r.store
      { r.update i e' s with refused := if errors.isEmpty then r.refused else i :: r.refused }
  | .retain ref => { r with store := r.store.retain ref }
  | .release ref => { r with store := r.store.release ref }

/-- The registry after a history. -/
def run (r : Registry) (history : List Action) : Registry := history.foldl act r

/-- Nothing has been done for any equation yet. The store may be in use for other things. -/
structure Fresh (r : Registry) : Prop where
  equations : ∀ e ∈ r.equations, e.slots = []
  owner : ∀ k, r.owner k = none

/-- Every equation keeps references to exactly the slots that belong to it. -/
structure Sound (r : Registry) : Prop where
  nodup : ∀ {i : Nat} {e : Equation}, r.equations[i]? = some e → e.slots.Nodup
  slots : ∀ {i : Nat} {e : Equation}, r.equations[i]? = some e →
    ∀ ref, ref ∈ e.slots ↔ ∃ k : Nat, ref = .equation k ∧ r.owner k = some i
  taken : ∀ {k i : Nat}, r.owner k = some i → (r.store.slot? k).isSome
  refused : ∀ {i : Nat} {e : Equation}, r.equations[i]? = some e → e.program = .none →
    e.slots ≠ [] → i ∈ r.refused

theorem Fresh.sound (h : r.Fresh) : r.Sound where
  nodup he := by simp [h.equations _ (mem_of_getElem? he)]
  slots he ref := by simp [h.equations _ (mem_of_getElem? he), h.owner]
  taken hk := by simp [h.owner] at hk
  refused he _ hne := absurd (h.equations _ (mem_of_getElem? he)) hne

section

variable {i : Nat} {e e' : Equation}

theorem Sound.taken_of_mem (h : r.Sound) (he : r.equations[i]? = some e) (hmem : ref ∈ e.slots) :
    r.store.Taken ref := by
  obtain ⟨k, rfl, hk⟩ := (h.slots he ref).1 hmem
  obtain ⟨p, hp⟩ := Option.isSome_iff_exists.1 (h.taken hk)
  exact ⟨k, p, rfl, hp⟩

theorem Sound.owner_eq_none (h : r.Sound) (hk : r.store.slot? k = none) : r.owner k = none := by
  cases howner : r.owner k with
  | none => rfl
  | some j => simpa [hk] using h.taken howner

/-! ### Owners after work for an equation -/

section

variable (h : r.Sound)

include h

theorem Sound.owner_update_same (hs : s.slot? k = r.store.slot? k) :
    (r.update i e s).owner k = r.owner k := by
  simp only [update, hs]
  cases hk : r.store.slot? k with
  | none => simp [h.owner_eq_none hk]
  | some p => simp

theorem Sound.owner_update_take (hfree : r.store.slot? k = none)
    (hs : r.store.SlotsBut k 0 s) (j : Nat) :
    (r.update i e s).owner j = if j = k then some i else r.owner j := by
  by_cases hj : j = k
  · obtain ⟨p, hp, -⟩ := hs.own
    simp [update, hj, hp, hfree]
  · rw [if_neg hj, h.owner_update_same (hs.others j hj)]

theorem Sound.owner_update_freed (hs : Freed refs r.store s) (j : Nat) :
    (r.update i e s).owner j =
      if .equation j ∈ refs ∧ r.store.busy (.equation j) = false then none else r.owner j := by
  by_cases hj : .equation j ∈ refs ∧ r.store.busy (.equation j) = false
  · simp [update, hs j, hj]
  · rw [if_neg hj, h.owner_update_same (by rw [hs j, if_neg hj])]

section

variable (he : r.equations[i]? = some e)

include he

/-- A registry stays sound when the slots of one equation follow the owners and those of the other
    equations stay. -/
theorem Sound.update (hrefused : ∀ j ∈ r.refused, j ∈ refused) (hnodup : e'.slots.Nodup)
    (hslots : ∀ ref, ref ∈ e'.slots ↔
      ∃ k : Nat, ref = .equation k ∧ (r.update i e' s).owner k = some i)
    (hothers : ∀ j, j ≠ i → ∀ k, (r.update i e' s).owner k = some j ↔ r.owner k = some j)
    (hleft : e'.program = .none → e'.slots ≠ [] → i ∈ refused) :
    Sound { r.update i e' s with refused := refused } := by
  -- which equation a number stands for after the update
  have hget {j : Nat} {f : Equation} (hf : (r.equations.set i e')[j]? = some f) :
      (j = i ∧ f = e') ∨ (j ≠ i ∧ r.equations[j]? = some f) := by
    by_cases hj : j = i
    · subst hj
      obtain ⟨hlt, -⟩ := List.getElem?_eq_some_iff.1 he
      rw [getElem?_set_self hlt] at hf
      exact .inl ⟨rfl, (Option.some.inj hf).symm⟩
    · rw [getElem?_set_ne (Ne.symm hj)] at hf
      exact .inr ⟨hj, hf⟩
  refine ⟨?nodup, ?slots, ?taken, ?refused⟩
  case nodup =>
    intro j f hf
    rcases hget hf with ⟨rfl, rfl⟩ | ⟨-, hf⟩
    · exact hnodup
    · exact h.nodup hf
  case slots =>
    intro j f hf ref
    rcases hget hf with ⟨rfl, rfl⟩ | ⟨hj, hf⟩
    · exact hslots ref
    · rw [h.slots hf ref]
      exact exists_congr fun k => and_congr_right fun _ => (hothers j hj k).symm
  case taken =>
    intro k j hk
    change (s.slot? k).isSome
    cases hslot : s.slot? k with
    | none => simp [Registry.update, hslot] at hk
    | some p => rfl
  case refused =>
    intro j f hf hnone hne
    rcases hget hf with ⟨rfl, rfl⟩ | ⟨-, hf⟩
    · exact hleft hnone hne
    · exact hrefused j (h.refused hf hnone hne)

theorem Sound.update_same (hs : ∀ j, s.slot? j = r.store.slot? j) : (r.update i e s).Sound := by
  refine h.update he (fun _ hj => hj) (h.nodup he) ?_ ?_ (h.refused he)
  · intro ref
    simp only [h.owner_update_same (hs _)]
    exact h.slots he ref
  · intro j _ k
    rw [h.owner_update_same (hs k)]

theorem Sound.update_take
    (hslots : e'.slots.Perm (.equation k :: e.slots)) (hprogram : e'.program ≠ .none)
    (hfree : r.store.slot? k = none) (hs : r.store.SlotsBut k 0 s) :
    (r.update i e' s).Sound := by
  -- the slot is new: it belonged to nobody
  have hnone : r.owner k = none := h.owner_eq_none hfree
  have hnew : .equation k ∉ e.slots := by
    intro hmem
    obtain ⟨k', heq, hk'⟩ := (h.slots he _).1 hmem
    obtain rfl : k = k' := by simpa using heq
    simp [hnone] at hk'
  refine h.update he (fun _ hj => hj) ?_ ?_ ?_ (fun hno => absurd hno hprogram)
  · exact hslots.nodup_iff.2 (nodup_cons.2 ⟨hnew, h.nodup he⟩)
  · intro ref
    rw [hslots.mem_iff, mem_cons, h.slots he ref]
    simp only [h.owner_update_take hfree hs]
    constructor
    · rintro (rfl | ⟨j, rfl, hj⟩)
      · exact ⟨k, rfl, if_pos rfl⟩
      · refine ⟨j, rfl, ?_⟩
        rw [if_neg (by rintro rfl; simp [hnone] at hj), hj]
    · rintro ⟨j, rfl, hj⟩
      by_cases hjk : j = k
      · exact .inl (by rw [hjk])
      · rw [if_neg hjk] at hj
        exact .inr ⟨j, rfl, hj⟩
  · intro j hj l
    rw [h.owner_update_take hfree hs]
    by_cases hl : l = k
    · simp [hl, hnone, Ne.symm hj]
    · rw [if_neg hl]

theorem Sound.update_takes (ht : e.Takes r.store e' s) : (r.update i e' s).Sound := by
  cases ht with
  | slot hslots hprogram hfree hs => exact h.update_take he hslots hprogram hfree hs
  | none hs => exact h.update_same he hs

theorem Sound.update_freed
    (hrefused : ∀ j ∈ r.refused, j ∈ refused) (hslots : e'.slots = e.slots.filter r.store.busy)
    (hs : Freed e.slots r.store s) (hleft : e'.slots ≠ [] → i ∈ refused) :
    Sound { r.update i e' s with refused := refused } := by
  refine h.update he hrefused ?_ ?_ ?_ (fun _ => hleft)
  · rw [hslots]
    exact (h.nodup he).filter _
  · intro ref
    rw [hslots, mem_filter]
    simp only [h.owner_update_freed hs]
    constructor
    · rintro ⟨hmem, hbusy⟩
      obtain ⟨k, rfl, hk⟩ := (h.slots he ref).1 hmem
      exact ⟨k, rfl, by simp [hbusy, hk]⟩
    · rintro ⟨k, rfl, hk⟩
      split at hk
      · cases hk
      · next hkept =>
        have hmem := (h.slots he _).2 ⟨k, rfl, hk⟩
        simpa [hmem] using hkept
  · intro j hj k
    rw [h.owner_update_freed hs]
    split
    · next hgone =>
      obtain ⟨k', heq, hk'⟩ := (h.slots he _).1 hgone.1
      obtain rfl : k = k' := by simpa using heq
      simp [hk', Ne.symm hj]
    · exact Iff.rfl

end

theorem Sound.of_store
    (hs : ∀ k, (r.store.slot? k).isSome → (s.slot? k).isSome) : Sound { r with store := s } where
  nodup := h.nodup
  slots := h.slots
  taken hk := hs _ (h.taken hk)
  refused := h.refused

end

end

/-! ### What an action and a history preserve -/

theorem Sound.attempt (h : r.Sound) (i : Nat) {work : Equation → Edit Equation}
    (hwork : ∀ e s, Outcome (e.Takes s) s.Forgoes (work e s)) : (r.attempt i work).Sound := by
  unfold Registry.attempt
  cases he : r.equations[i]? with
  | none => exact h
  | some e =>
    have hrun := hwork e r.store
    dsimp only
    generalize work e r.store = result at hrun
    cases hrun with
    | ok ht => exact h.update_takes he ht
    | error ht =>
      dsimp only
      split
      · exact h
      · next hcause => exact h.update_same he (ht.resolve_right fun hcrash => hcause hcrash.1)

theorem Sound.act (h : r.Sound) (a : Action) : (r.act a).Sound := by
  cases a with
  | compile i names => exact h.attempt i fun e => e.compile_takes names
  | solveFor i name =>
    exact h.attempt i fun e s => (e.solveFor_takes name s).bind fun _ _ ht => .ok ht
  | free i =>
    simp only [Registry.act]
    cases he : r.equations[i]? with
    | none => exact h
    | some e =>
      by_cases hprogram : e.program = .none
      · simp only [e.free_of_program_eq_none r.store hprogram]
        exact h.update_same he fun _ => rfl
      · obtain ⟨e', errors, s', hrun, hslots, herrors, hs'⟩ :=
          Equation.free_freed hprogram (h.nodup he) fun _ => h.taken_of_mem he
        simp only [hrun]
        refine h.update_freed he ?_ hslots hs' ?_
        · intro j hj
          split
          · exact hj
          · exact mem_cons_of_mem i hj
        · intro hne
          have hfailed : errors ≠ [] := fun hnil => hne (herrors.1 hnil)
          simp [hfailed]
  | retain ref => exact h.of_store fun _ => isSome_slot?_notes (notes_retain _ ref)
  | release ref => exact h.of_store fun _ => isSome_slot?_notes (notes_release _ ref)

theorem Sound.run (h : r.Sound) (history : List Action) : (r.run history).Sound := by
  induction history generalizing r with
  | nil => exact h
  | cons a rest ih => exact ih (h.act a)

/-- After any history, freeing an equation that has a program of its own frees exactly the idle
    slots that belong to it, keeps the busy ones and succeeds when there are none. Freeing one
    without a program changes nothing and succeeds, and slots still belong to it only if freeing it
    failed before. Slots of other owners are never touched. -/
theorem free_releases {r₀ : Registry} (h₀ : r₀.Fresh) (history : List Action) {i : Nat}
    {e : Equation} (he : (r₀.run history).equations[i]? = some e) :
    let r := r₀.run history
    ∃ e' errors s', e.free r.store = (e', errors, s') ∧
      (e.program ≠ .none →
        (errors = [] ↔ ∀ k : Nat, r.owner k = some i → r.store.refCount (.equation k) = 0) ∧
        ∀ k : Nat, r.owner k = some i →
          s'.slot? k = if r.store.refCount (.equation k) = 0 then none else r.store.slot? k) ∧
      (e.program = .none → e' = e ∧ errors = [] ∧ s' = r.store ∧
        ∀ k, r.owner k = some i → (r.store.slot? k).isSome ∧ i ∈ r.refused) ∧
      ∀ k, r.owner k ≠ some i → s'.slot? k = r.store.slot? k := by
  intro r
  have h : r.Sound := h₀.sound.run history
  have hmem {k : Nat} : .equation k ∈ e.slots ↔ r.owner k = some i := by
    rw [h.slots he]
    simp
  by_cases hprogram : e.program = .none
  · refine ⟨e, [], r.store, e.free_of_program_eq_none _ hprogram, fun hne => absurd hprogram hne,
      fun _ => ⟨rfl, rfl, rfl, ?_⟩, fun _ _ => rfl⟩
    intro k hk
    exact ⟨h.taken hk, h.refused he hprogram (ne_nil_of_mem (hmem.2 hk))⟩
  · obtain ⟨e', errors, s', hrun, hslots, herrors, hs'⟩ :=
      Equation.free_freed hprogram (h.nodup he) fun _ => h.taken_of_mem he
    refine ⟨e', errors, s', hrun, fun _ => ⟨?_, ?_⟩, fun hno => absurd hno hprogram, ?_⟩
    · rw [herrors, hslots, filter_eq_nil_iff]
      constructor
      · intro hidle k hk
        simpa [busy] using hidle _ (hmem.2 hk)
      · intro hidle ref href
        obtain ⟨k, rfl, hk⟩ := (h.slots he ref).1 href
        simpa [busy] using hidle k hk
    · intro k hk
      simp [hs' k, hmem.2 hk, busy]
    · intro k hk
      exact hs'.slot?_of_not_mem fun hin => hk (hmem.1 hin)

/-- The equation `X=A` in an empty store. -/
def leaking : Registry where
  store := { options := ({} : Options).normalize }
  equations := [{
    name := [], source := utf8 "X=A", compat := false
    tree := .binary 1 .equation (.var 0 (utf8 "X")) (.var 2 (utf8 "A")) }]

/-- A history that frees the equation while a return into its solution for `X` is pending. -/
def leakingHistory : List Action :=
  [.compile 0 [], .solveFor 0 (utf8 "X"), .retain (.equation 1), .free 0, .release (.equation 1)]

/-- No return is pending any more and freeing succeeds, but the slot of the solution stays taken. -/
theorem free_releases_leak :
    ∃ e, (leaking.run leakingHistory).equations[0]? = some e ∧
      (leaking.run leakingHistory).owner 1 = some 0 ∧
      (leaking.run leakingHistory).store.refCount (.equation 1) = 0 ∧
      ∃ e' s', e.free (leaking.run leakingHistory).store = (e', [], s') ∧ (s'.slot? 1).isSome := by
  have howner : (leaking.run leakingHistory).owner 1 = some 0 := by decide +kernel
  have hidle : (leaking.run leakingHistory).store.refCount (.equation 1) = 0 := by decide +kernel
  have hprogram : (leaking.run leakingHistory).equations[0]?.map (·.program) = some .none := by
    decide +kernel
  obtain ⟨e, he, hnone⟩ := Option.map_eq_some_iff.1 hprogram
  have hfresh : leaking.Fresh := ⟨by simp [leaking, Equation.slots], fun _ => rfl⟩
  obtain ⟨e', errors, s', hrun, -, hleft, -⟩ := free_releases hfresh leakingHistory he
  obtain ⟨-, rfl, rfl, hslots⟩ := hleft hnone
  exact ⟨e, he, howner, hidle, e', _, hrun, (hslots 1 howner).1⟩

end Registry

end Keystroke
