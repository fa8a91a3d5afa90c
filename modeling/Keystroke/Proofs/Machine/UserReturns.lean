import Keystroke.Proofs.Machine.Pending

set_option autoImplicit false

/-! # Pending returns into programs of the user

A frame names a program of the user by its number, while the store keeps the number of returns with
the program. An END that is put in or taken out gives the programs behind it other numbers before
the frames are dropped, and each frame takes back the note of the program that has its number then.
So the notes are right as long as no return leads behind such an END (`SessionRequest.Orderly`). -/

namespace Keystroke

open Operation

/-- No return is pending into a program behind the one with the given number. -/
def Session.NoneBehind (s : Session) (i : Int) : Prop :=
  ∀ f ∈ s.calls.frames, ∀ j, f.ref = .user j → j ≤ i

theorem Session.Counted.idleBehind {s : Session} {i : Int} (hs : s.Counted true)
    (h : s.NoneBehind i) : s.store.IdleBehind (.user i) := by
  intro k j hk hj
  rw [hs.counts (.user j) rfl]
  refine Nat.eq_zero_of_not_pos fun hpos => ?_
  obtain ⟨f, hf, href⟩ := CallStack.returnsInto_pos.1 hpos
  have hle := h f hf j href
  have hik := ProgramRef.user.inj hk
  omega

/-- An edit that is counted drops all pending returns. -/
theorem Session.frames_edit {α : Type} {s : Session} {op : Edit α} (h : s.calls.WellFormed)
    (hedits : (state (op s.store)).edits ≠ s.store.edits) :
    (state (edit op s)).calls.frames = [] := by
  unfold edit
  cases hrun : op s.store with
  | ok a store | error e store =>
    rw [hrun] at hedits
    have hne : store.edits ≠ s.store.edits := hedits
    obtain ⟨calls, store', hclear, hempty, -⟩ :=
      clearReturns_eq_ok (s := { s with store := store }) h
    simp only [if_neg hne, hclear]
    simp [CallStack.frames, state, hempty.slots]

namespace SessionRequest

open Session

/-- Requests that run programs or edit those of the user. An END that one puts in or takes out has
    no pending return behind it. -/
def Tame (s : Session) : SessionRequest → Prop
  | store .newProgram | store (.clearProgram (.user _)) | call _ | step | run _ | evaluate _ _ _
  | reset | prepare _ _ _ _ => True
  | store (.insert (.user i) _ line) | store (.insertAfter (.user i) _ line) =>
    line.command = .endLine → s.NoneBehind i
  | store (.delete (.user i) pc) => ∀ p hd, s.store.program? (.user i) = some p →
    headerAt? p.buffer.text pc = some hd → hd.command = .endLine → s.NoneBehind i
  | _ => False

/-- Each request is tame in the session that the ones before it lead to. -/
def Orderly : Session → List SessionRequest → Prop
  | _, [] => True
  | s, r :: rs => r.Tame s ∧ Orderly (r.perform s) rs

theorem counted_of_tame {s : Session} {r : SessionRequest} (hs : s.Counted true) (hr : r.Tame s) :
    (r.perform s).Counted true := by
  cases r with
  | store r =>
    have hreply {α : Type} {x : Edit α} {f : α → Reply}
        (hx : s.store.SameCounts true (state (x s.store))) :
        (state (edit (do return f (← x) : Edit Reply) s)).Counted true :=
      hs.edit (Leads.bind (P := (· = s.store)) (by rintro _ rfl; exact hx) (fun _ => .pure _) _ rfl)
    cases r with
    | newProgram => exact hreply Store.sameCounts_newProgram
    | insert ref pc line =>
      cases ref with
      | user i => exact hreply (Store.sameCounts_insert pc line fun _ h => hs.idleBehind (hr h))
      | none | equation | solver | integrator => exact hr.elim
    | insertAfter ref pc line =>
      cases ref with
      | user i =>
        exact hreply
          (Store.sameCounts_insertAfter pc line fun _ h => hs.idleBehind (hr h))
      | none | equation | solver | integrator => exact hr.elim
    | delete ref pc =>
      cases ref with
      | user i =>
        exact hreply
          (Store.sameCounts_delete pc fun _ _ _ hp hd h => hs.idleBehind (hr _ _ hp hd h))
      | none | equation | solver | integrator => exact hr.elim
    | clearProgram ref => exact hreply (Store.sameCounts_clearProgram ref)
    | newEquationSlot | freeEquation | beginBulkLoad | endBulkLoad | openGenerated | closeGenerated
    | invalidate | resolve => exact hr.elim
  | compile | solveFor | free => exact hr.elim
  | call ref => exact leads_call ref s hs
  | step => exact leads_step s hs
  | run cancelled => exact leads_run cancelled s hs
  | evaluate ref inputs cancelled => exact leads_evaluate ref inputs cancelled s hs
  | reset => exact leads_reset s hs
  | prepare => exact hs.of_same (.refl _) rfl

theorem counted_of_orderly {s : Session} {rs : List SessionRequest} (hs : s.Counted true)
    (hrs : Orderly s rs) : (rs.foldl perform s).Counted true := by
  induction rs generalizing s with
  | nil => exact hs
  | cons r rs ih => exact ih (counted_of_tame hs hrs.1) hrs.2

/-- The store's notes of returns into programs of the user match the call stack after calls, steps,
    runs and edits, as long as no return leads behind an END that is put in or taken out. An edit
    after them that drops the pending returns leaves no notes. -/
theorem user_returns_counted {options : Options} {s : Session} {rs : List SessionRequest}
    (hnew : Session.new options = .ok s) (hrs : Orderly s rs) (i : Int) :
    let t := rs.foldl perform s
    t.store.refCount (.user i) = t.calls.frames.countP (·.ref = .user i) ∧
      ∀ r : Request, (store r).Tame t → (state (r.run t.store)).edits ≠ t.store.edits →
        ((store r).perform t).calls.frames = [] ∧
          ((store r).perform t).store.refCount (.user i) = 0 := by
  intro t
  have ht : t.Counted true := counted_of_orderly (counted_new hnew) hrs
  refine ⟨ht.counts (.user i) rfl, fun r hr hedits => ?_⟩
  have hframes : ((store r).perform t).calls.frames = [] := frames_edit ht.calls hedits
  refine ⟨hframes, ?_⟩
  rw [(counted_of_tame ht hr).counts (.user i) rfl, CallStack.returnsInto, hframes]
  rfl

/-- A program that calls another one, up to the call. -/
def callingNext : List SessionRequest :=
  [.store (.insert (.user 0) 0 (.withName .xeq [65])),
    .store (.insert (.user 0) 4 (.plain .endLine)),
    .store (.insert (.user 1) 0 (.withName .lbl [65])), .call (.user 0), .step]

/-- While the call is pending, the program that was called is cut behind its label. -/
theorem user_returns_counted_callingNext : ∃ s t, Session.new {} = .ok s ∧
    Orderly s callingNext ∧ t = callingNext.foldl perform s ∧ t.store.refCount (.user 0) = 1 ∧
    ((store (.insert (.user 1) 4 (.plain .endLine))).perform t).store.refCount (.user 0) = 0 := by
  obtain ⟨s, hnew⟩ : ∃ s, Session.new {} = .ok s := ⟨_, rfl⟩
  have hframes : (callingNext.foldl perform s).calls.frames.map (·.ref) = [.user 0] := by
    obtain rfl := Except.ok.inj hnew
    decide +kernel
  have hrs : Orderly s callingNext := by
    have hnone : (perform s (callingNext.headD .reset)).calls.frames = [] := by
      obtain rfl := Except.ok.inj hnew
      decide +kernel
    refine ⟨fun h => absurd h (by decide), fun _ f hf => ?_, fun h => absurd h (by decide), trivial,
      trivial, trivial⟩
    exact (List.not_mem_nil (hnone ▸ hf)).elim
  obtain ⟨hcount, hedit⟩ := user_returns_counted hnew hrs 0
  refine ⟨s, _, hnew, hrs, rfl, ?_, (hedit (.insert (.user 1) 4 (.plain .endLine)) ?_ ?_).2⟩
  · have hone := congrArg (List.countP (· = .user 0)) hframes
    rw [List.countP_map] at hone
    exact hcount.trans hone
  · intro _ f hf j hj
    have hmem := List.mem_map_of_mem (f := Frame.ref) hf
    rw [hframes, List.mem_singleton, hj] at hmem
    have := ProgramRef.user.inj hmem
    omega
  · obtain rfl := Except.ok.inj hnew
    decide +kernel

end SessionRequest

end Keystroke
