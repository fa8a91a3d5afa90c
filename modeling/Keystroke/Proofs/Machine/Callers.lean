import Keystroke.Proofs.Machine.Activations
import Keystroke.Proofs.Machine.Pending

set_option autoImplicit false

/-! # The flags of the solver and the integrator

The call stack has a flag for each of its two virtual callers, which is set when the caller enters a
level and cleared when a level of the caller is left. It does not count, so of two levels of one
caller the first that is left clears the flag. A flag is therefore never set without such a level,
and it is set with one as long as no caller enters a second level
(`CallRequest.flags_tell_callers`). -/

namespace Keystroke

open Operation Except CallStack

namespace CallStack

variable {c c' : CallStack} {ref caller : ProgramRef} {flag : CallStack → Bool} {once : Prop}

/-- The flags, each with its caller. -/
inductive FlagOf : (CallStack → Bool) → ProgramRef → Prop
  | solving : FlagOf solving .solver
  | integrating : FlagOf integrating .integrator

/-- A flag is set only with a level of its caller, and always with one if there is at most one. -/
structure Tells (flag : CallStack → Bool) (caller : ProgramRef) (once : Prop) (c : CallStack) :
    Prop where
  sound : flag c = true → 0 < c.returnsInto caller
  complete : once → c.returnsInto caller ≤ 1 ∧ (0 < c.returnsInto caller → flag c = true)

theorem Tells.of_same (h : c.Tells flag caller once) (hflag : flag c' = flag c)
    (hcount : c'.returnsInto caller = c.returnsInto caller) : c'.Tells flag caller once :=
  ⟨by rw [hflag, hcount]; exact h.sound, by rw [hflag, hcount]; exact h.complete⟩

theorem Tells.push {pc : Int} (h : c.Tells flag caller once) (hf : FlagOf flag caller)
    (hfirst : once → ref = caller → c.returnsInto caller = 0) (hpush : c.push ref pc = .ok c') :
    c'.Tells flag caller once := by
  have hcount := returnsInto_push hpush caller
  have hflag : flag c' = (flag c || ref = caller) := by
    unfold CallStack.push at hpush
    split at hpush
    · cases hpush
    · obtain rfl := ok.inj hpush
      cases hf <;> rfl
  by_cases href : ref = caller
  · refine ⟨fun _ => by simp [hcount, href], fun hone => ⟨?_, fun _ => by simp [hflag, href]⟩⟩
    simp [hcount, href, hfirst hone href]
  · exact h.of_same (by simp [hflag, href]) (by simp [hcount, href])

/-- Taking a cursor off takes two slots, which hold no return. -/
theorem exists_of_takeCursor_bind {α : Type} {slots : List Slot} {a : α}
    {f : MatrixCursor × List Slot → Except Error α} (h : takeCursor slots >>= f = .ok a) :
    ∃ cursor rest, f (cursor, rest) = .ok a ∧
      slots = .cursorName cursor.name :: .cursorPlace cursor.row cursor.col :: rest := by
  unfold takeCursor at h
  split at h
  · exact ⟨_, _, h, rfl⟩
  · cases h

/-- Leaving a level takes off its return, if it has one, and clears the flag of its caller. -/
theorem flag_pop {popped : Popped} (hf : FlagOf flag caller) (hpop : c.pop = .ok (popped, c')) :
    flag c' = (flag c && (popped.top || popped.frame.ref ≠ caller)) ∧
      c.frames = (if popped.top then [] else [popped.frame]) ++ c'.frames := by
  unfold pop popBase at hpop
  split at hpop
  · split at hpop
    · obtain ⟨cursor, rest, hpop, hslots⟩ := exists_of_takeCursor_bind hpop
      obtain ⟨rfl, rfl⟩ := Prod.mk.inj (ok.inj hpop)
      exact ⟨by cases hf <;> simp, by simp [frames, hslots]⟩
    · obtain ⟨rfl, rfl⟩ := Prod.mk.inj (ok.inj hpop)
      exact ⟨by cases hf <;> simp, rfl⟩
  · split at hpop
    · cases hpop
    · next ref pc hasCursor hasFunc rest hslots =>
      cases hasCursor with
      | false =>
        obtain ⟨rfl, rfl⟩ := Prod.mk.inj (ok.inj hpop)
        exact ⟨by cases hf <;> simp, by simp [frames, hslots]⟩
      | true =>
        have hbind : ∀ x : Except Error (MatrixCursor × List Slot),
            x.map (fun r => (some r.1, r.2)) = x >>= fun r => pure (some r.1, r.2) := by
          intro x
          cases x <;> rfl
        simp only [if_pos, hbind, bind_assoc] at hpop
        obtain ⟨cursor, rest', hpop, hrest⟩ := exists_of_takeCursor_bind hpop
        obtain ⟨rfl, rfl⟩ := Prod.mk.inj (ok.inj hpop)
        exact ⟨by cases hf <;> simp, by simp [frames, hslots, hrest]⟩
    · cases hpop

section

variable (h : c.Tells flag caller once) (hf : FlagOf flag caller)

include h hf

theorem Tells.pop {popped : Popped}
    (hpop : c.pop = .ok (popped, c')) : c'.Tells flag caller once := by
  obtain ⟨hflag, hframes⟩ := flag_pop hf hpop
  have hcount : c.returnsInto caller = c'.returnsInto caller +
      if popped.top = false ∧ popped.frame.ref = caller then 1 else 0 := by
    rw [returnsInto, hframes, List.countP_append, Nat.add_comm]
    cases popped.top <;> simp [returnsInto, List.countP_cons]
  by_cases hleft : popped.top = false ∧ popped.frame.ref = caller
  · refine ⟨by simp [hflag, hleft], fun hone => ?_⟩
    have hle := (h.complete hone).1
    rw [hcount, if_pos hleft] at hle
    omega
  · rw [if_neg hleft] at hcount
    have hcase : popped.top = true ∨ popped.frame.ref ≠ caller := by
      by_contra hnot
      simp_all
    refine h.of_same ?_ hcount.symm
    rw [hflag]
    rcases hcase with h | h <;> simp [h]

theorem Tells.pushCursor {cursor : MatrixCursor} (hsave : c.pushCursor cursor = .ok c') :
    c'.Tells flag caller once := by
  unfold CallStack.pushCursor at hsave
  split at hsave
  · split at hsave <;> obtain rfl := ok.inj hsave
    · exact h
    · exact h.of_same (by cases hf <;> rfl) (by simp [returnsInto, frames])
  · split at hsave
    · next hslots =>
      split at hsave <;> obtain rfl := ok.inj hsave
      · exact h
      · exact h.of_same (by cases hf <;> rfl) (by simp [returnsInto, frames, hslots])
    · cases hsave

theorem Tells.popCursor {name : Bytes} {found : Option MatrixCursor}
    (hdrop : c.popCursor name = .ok (found, c')) : c'.Tells flag caller once := by
  unfold CallStack.popCursor at hdrop
  split at hdrop
  · split at hdrop
    · obtain ⟨-, rfl⟩ := Prod.mk.inj (ok.inj hdrop)
      exact h
    · obtain ⟨cursor, rest, hdrop, hslots⟩ := exists_of_takeCursor_bind hdrop
      dsimp only at hdrop
      split at hdrop <;> obtain ⟨-, rfl⟩ := Prod.mk.inj (ok.inj hdrop)
      · exact h.of_same (by cases hf <;> rfl) (by simp [returnsInto, frames, hslots])
      · exact h
  · split at hdrop
    · next hpending =>
      obtain ⟨cursor, rest, hdrop, hslots⟩ := exists_of_takeCursor_bind hdrop
      dsimp only at hdrop
      split at hdrop <;> obtain ⟨-, rfl⟩ := Prod.mk.inj (ok.inj hdrop)
      · exact h.of_same (by cases hf <;> rfl) (by simp [returnsInto, frames, hpending, hslots])
      · exact h
    · obtain ⟨-, rfl⟩ := Prod.mk.inj (ok.inj hdrop)
      exact h
    · cases hdrop

theorem Tells.markFunc (hmark : c.markFunc = .ok c') : c'.Tells flag caller once := by
  refine h.of_same ?_ (returnsInto_markFunc hmark caller)
  unfold CallStack.markFunc at hmark
  split at hmark
  · obtain rfl := ok.inj hmark
    cases hf <;> rfl
  · split at hmark
    · obtain rfl := ok.inj hmark
      cases hf <;> rfl
    · cases hmark

end

end CallStack

namespace CallRequest

open Session

variable {s : Session} {caller : ProgramRef} {flag : CallStack → Bool} {once : Prop}

theorem leads_popReturn (hf : CallStack.FlagOf flag caller) :
    Leads (·.calls.Tells flag caller once) popReturn (·.calls.Tells flag caller once) := by
  intro s hs
  rw [popReturn, get_bind]
  cases hpop : s.calls.pop with
  | error e => exact hs
  | ok left => exact hs.pop hf hpop

theorem leads_popReturns (hf : CallStack.FlagOf flag caller) (n : Nat) :
    Leads (·.calls.Tells flag caller once) (popReturns n) (·.calls.Tells flag caller once) := by
  induction n with
  | zero => exact fun s hs => hs
  | succ n ih => exact (leads_popReturn hf).bind fun _ => ih

theorem leads_unwindFrom (hf : CallStack.FlagOf flag caller) (n : Nat) (stop : Bool) :
    Leads (·.calls.Tells flag caller once) (unwindFrom n stop)
      (·.calls.Tells flag caller once) := by
  induction n generalizing stop with
  | zero => exact fun s hs => hs
  | succ n ih =>
    refine (leads_popReturn hf).bind fun popped => ?_
    dsimp only
    split
    · exact .pure _
    · exact ih _

theorem leads_onCalls {α β : Type} {op : CallStack → Except Error α} {answer : α → β}
    {left : α → CallStack} (hop : ∀ {c a}, op c = .ok a → c.Tells flag caller once →
      (left a).Tells flag caller once) :
    Leads (·.calls.Tells flag caller once) (onCalls fun c => (op c).map fun a => (answer a, left a))
      (·.calls.Tells flag caller once) := by
  intro s hs
  rw [onCalls, get_bind]
  cases hrun : op s.calls with
  | error e => exact hs
  | ok a => exact hop hrun hs

/-- Whether a request enters a level of a caller that has one. -/
def reenters (caller : ProgramRef) (s : Session) : CallRequest → Bool
  | push ref _ => ref = caller && s.calls.frames.any (·.ref = caller)
  | _ => false

/-- Whether no request enters a level of a caller that has one. -/
def apart (caller : ProgramRef) : List CallRequest → Session → Bool
  | [], _ => true
  | r :: rs, s => !r.reenters caller s && apart caller rs (r.perform.attempt s).2

/-- A request leaves a flag right, unless it enters a second level of the flag's caller. -/
theorem tells_perform (hf : CallStack.FlagOf flag caller) (r : CallRequest)
    (hs : s.calls.Tells flag caller once) (hapart : once → r.reenters caller s = false) :
    (state (r.perform s)).calls.Tells flag caller once := by
  cases r with
  | push ref pc =>
    have hpush : Leads (· = s) (pushReturn ref pc) (·.calls.Tells flag caller once) := by
      intro t ht
      rw [ht, pushReturn, get_bind]
      cases hpush : s.calls.push ref pc with
      | error e => exact hs
      | ok calls =>
        refine hs.push hf (fun hone href => ?_) hpush
        simpa [reenters, href, returnsInto] using hapart hone
    exact hpush.bind (fun _ => .pure _) s rfl
  | pop => exact (leads_popReturn hf).bind (fun _ => .pure _) s hs
  | saveCursor cursor => exact leads_onCalls (fun hsave h => h.pushCursor hf hsave) s hs
  | dropCursor name => exact leads_onCalls (fun hdrop h => h.popCursor hf hdrop) s hs
  | markFunc => exact leads_onCalls (fun hmark h => h.markFunc hf hmark) s hs
  | clear =>
    have hclear : Leads (·.calls.Tells flag caller once) clearCalls
        (·.calls.Tells flag caller once) := fun s hs => leads_popReturns hf _ s hs
    exact hclear.bind (fun _ => .pure _) s hs
  | unwind =>
    have hunwind : Leads (·.calls.Tells flag caller once) unwindUntilSolve
        (·.calls.Tells flag caller once) := fun s hs => leads_unwindFrom hf _ _ s hs
    exact hunwind.bind (fun _ => .pure _) s hs

theorem attempt_snd {α : Type} (op : Machine α) (s : Session) :
    (op.attempt s).2 = state (op s) := by
  unfold Machine.attempt
  cases op s <;> rfl

theorem tells_runs (hf : CallStack.FlagOf flag caller) (rs : List CallRequest)
    (hs : s.calls.Tells flag caller once) (hapart : once → apart caller rs s = true) :
    (runs rs s).2.calls.Tells flag caller once := by
  induction rs generalizing s with
  | nil => exact hs
  | cons r rs ih =>
    simp only [apart, Bool.and_eq_true, Bool.not_eq_true'] at hapart
    have hstep := tells_perform hf r hs fun hone => (hapart hone).1
    rw [← attempt_snd] at hstep
    exact ih hstep fun hone => (hapart hone).2

theorem flag_runs (hf : CallStack.FlagOf flag caller) {max : Int} (hs : s.calls = .new max)
    (rs : List CallRequest) :
    let c := (runs rs s).2.calls
    (flag c = true → ∃ f ∈ c.frames, f.ref = caller) ∧
      (apart caller rs s = true → (∃ f ∈ c.frames, f.ref = caller) → flag c = true) := by
  intro c
  have htells : c.Tells flag caller (apart caller rs s = true) := by
    refine tells_runs hf rs ?_ id
    rw [hs]
    refine ⟨?_, fun _ => ⟨Nat.zero_le 1, fun h => absurd h (Nat.lt_irrefl 0)⟩⟩
    cases hf <;> exact fun h => nomatch h
  exact ⟨fun h => returnsInto_pos.1 (htells.sound h),
    fun hone h => (htells.complete hone).2 (returnsInto_pos.2 h)⟩

/-- The flags after any requests to an empty call stack. A flag that is set tells that there is a
    level of its caller, and as long as no second level of the caller is entered while there is one,
    a flag that is not set tells that there is none. -/
theorem flags_tell_callers {max : Int} (hs : s.calls = .new max) (rs : List CallRequest) :
    let c := (runs rs s).2.calls
    (c.solving = true → ∃ f ∈ c.frames, f.ref = .solver) ∧
      (c.integrating = true → ∃ f ∈ c.frames, f.ref = .integrator) ∧
      (apart .solver rs s = true → (∃ f ∈ c.frames, f.ref = .solver) → c.solving = true) ∧
      (apart .integrator rs s = true →
        (∃ f ∈ c.frames, f.ref = .integrator) → c.integrating = true) := by
  intro c
  obtain ⟨hsolver, hsolving⟩ := flag_runs .solving hs rs
  obtain ⟨hintegrator, hintegrating⟩ := flag_runs .integrating hs rs
  exact ⟨hsolver, hintegrator, hsolving, hintegrating⟩

/-- An integration inside a solve, both left and the solve entered again. -/
def solveTwice : List CallRequest :=
  [.push .solver 0, .push (.user 0) 2, .push .integrator 0, .saveCursor ⟨[65], 1, 1⟩, .unwind,
    .push .solver 4]

theorem flags_tell_callers_solveTwice :
    let s : Session := { store := { options := {} }, calls := .new 8 }
    let c := (runs solveTwice s).2.calls
    apart .solver solveTwice s = true ∧ (∃ f ∈ c.frames, f.ref = .solver) ∧ c.solving = true := by
  intro s c
  have hapart : apart .solver solveTwice s = true := by decide +kernel
  have hlevel : ∃ f ∈ c.frames, f.ref = .solver := by
    have hframes : c.frames = [⟨.solver, 4, false⟩] := by decide +kernel
    rw [hframes]
    exact ⟨_, List.mem_singleton_self _, rfl⟩
  have hs : s.calls = .new 8 := rfl
  exact ⟨hapart, hlevel, (flags_tell_callers hs solveTwice).2.2.1 hapart hlevel⟩

end CallRequest

end Keystroke
