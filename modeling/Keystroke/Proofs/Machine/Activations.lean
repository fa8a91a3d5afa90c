import Keystroke.Proofs.Machine.Returns

set_option autoImplicit false

/-! # The call stack as a stack of activations

Seen from outside, a call stack is a list of activations: where each returns to, whether it declared
its inputs and outputs, and the first cursor that it saved. Level zero keeps the same but returns
nowhere. The slots lay this out with the cursor under the return of its level, and no sequence of
requests tells the two apart (`CallRequest.runs_refine`). -/

namespace Keystroke

open Operation List CallStack

/-! ## Activations -/

/-- What a level keeps. -/
structure Keeping where
  /-- Whether the level declared its inputs and outputs. -/
  func : Bool := false
  /-- The first cursor that the level saved and did not drop. -/
  cursor : Option MatrixCursor := none
deriving DecidableEq, Repr

/-- A level that was called. -/
structure Activation extends Keeping where
  ref : ProgramRef
  pc : Int
deriving DecidableEq, Repr

/-- All levels. -/
structure Activations where
  /-- The levels that were called, the innermost first. -/
  called : List Activation := []
  /-- Level zero. -/
  base : Keeping := {}
deriving DecidableEq, Repr

/-- What can be asked of a call stack. -/
inductive CallRequest where
  | push (ref : ProgramRef) (pc : Int)
  | pop
  | saveCursor (cursor : MatrixCursor)
  | dropCursor (name : Bytes)
  | markFunc
  | clear
  | unwind
deriving DecidableEq, Repr

/-- What a call stack answers. -/
inductive CallAnswer where
  | done
  | popped (popped : Popped)
  | dropped (cursor : Option MatrixCursor)
  | unwound (stop found : Bool)
deriving DecidableEq, Repr

/-- The pending return of a level. -/
def Activation.frame (f : Activation) : Frame := ⟨f.ref, f.pc, f.func⟩

namespace Activations

/-- What the current level keeps. -/
def current (a : Activations) : Keeping :=
  match a.called with
  | [] => a.base
  | f :: _ => f.toKeeping

/-- Changes what the current level keeps. -/
def update (a : Activations) (change : Keeping → Keeping) : Activations :=
  match a.called with
  | [] => { a with base := change a.base }
  | f :: rest => { a with called := { f with toKeeping := change f.toKeeping } :: rest }

/-- The number of levels that hold a cursor. -/
def cursors (a : Activations) : Nat :=
  a.called.countP (·.cursor.isSome) + if a.base.cursor.isSome then 1 else 0

/-- Answers a request when at most `limit` levels may be called. -/
def perform (limit : Int) (a : Activations) : CallRequest → Except Error CallAnswer × Activations
  | .push ref pc =>
    if a.called.length = limit then (.error .returnStackFull, a)
    else (.ok .done, { a with called := { ref := ref, pc := pc } :: a.called })
  | .pop =>
    match a.called with
    | [] =>
      (.ok (.popped { frame := ⟨.none, -1, a.base.func⟩, cursor := a.base.cursor, top := true }),
        {})
    | f :: rest =>
      (.ok (.popped { frame := f.frame, cursor := f.cursor }), { a with called := rest })
  | .saveCursor cursor =>
    (.ok .done, a.update fun k => { k with cursor := k.cursor.or (some cursor) })
  | .dropCursor name =>
    if a.current.cursor.any (·.name = name) then
      (.ok (.dropped a.current.cursor), a.update fun k => { k with cursor := none })
    else (.ok (.dropped none), a)
  | .markFunc => (.ok .done, a.update fun k => { k with func := true })
  | .clear => (.ok .done, {})
  | .unwind =>
    match a.called.dropWhile (·.ref ≠ .solver) with
    | [] => (.ok (.unwound false false), { a with called := [] })
    | _ :: rest => (.ok (.unwound false true), { a with called := rest })

/-- Answers requests one after the other. -/
def runs (limit : Int) (a : Activations) :
    List CallRequest → List (Except Error CallAnswer) × Activations
  | [] => ([], a)
  | r :: rs =>
    let (answer, a) := a.perform limit r
    let (answers, a) := a.runs limit rs
    (answer :: answers, a)

end Activations

/-! ## Requests to a session -/

/-- Runs an operation on the call stack. -/
def Session.onCalls {α : Type} (op : CallStack → Except Error (α × CallStack)) : Machine α := do
  let s ← get
  let (a, calls) ← Machine.ofExcept (op s.calls)
  set { s with calls := calls }
  return a

/-- Runs an operation and goes on whether or not it fails. -/
def Machine.attempt {α : Type} (op : Machine α) (s : Session) : Except Error α × Session :=
  match op s with
  | .ok a s => (.ok a, s)
  | .error e s => (.error e, s)

namespace CallRequest

open Session

/-- Answers a request in a session. -/
def perform : CallRequest → Machine CallAnswer
  | push ref pc => do
    pushReturn ref pc
    return .done
  | pop => do
    let popped ← popReturn
    return .popped popped
  | saveCursor cursor => onCalls fun c => (c.pushCursor cursor).map fun c => (.done, c)
  | dropCursor name => onCalls fun c => (c.popCursor name).map fun r => (.dropped r.1, r.2)
  | markFunc => onCalls fun c => c.markFunc.map fun c => (.done, c)
  | clear => do
    clearCalls
    return .done
  | unwind => do
    let (stop, found) ← unwindUntilSolve
    return .unwound stop found

/-- Answers requests one after the other; a request that fails does not end the sequence. -/
def runs : List CallRequest → Session → List (Except Error CallAnswer) × Session
  | [], s => ([], s)
  | r :: rs, s =>
    let (answer, s) := r.perform.attempt s
    let (answers, s) := runs rs s
    (answer :: answers, s)

end CallRequest

/-! ## The layout -/

/-- The slots of what a level keeps. -/
def Keeping.slots (k : Keeping) : List Slot :=
  match k.cursor with
  | none => []
  | some c => [.cursorName c.name, .cursorPlace c.row c.col]

/-- The slots of a level that was called. -/
def Activation.slots (f : Activation) : List Slot :=
  .pending f.ref f.pc f.cursor.isSome f.func :: f.toKeeping.slots

namespace Activations

/-- The slots of all levels. -/
def slots (a : Activations) : List Slot := a.called.flatMap Activation.slots ++ a.base.slots

/-- The call stack that holds these activations. -/
def layout (limit : Int) (solving integrating : Bool) (a : Activations) : CallStack where
  slots := a.slots
  level := a.called.length
  max := limit
  baseCursor := a.base.cursor.isSome
  baseFunc := a.base.func
  solving := solving
  integrating := integrating

variable {limit : Int} {solving integrating : Bool} {a : Activations} {base : Keeping}
  {f : Activation} {rest : List Activation}

theorem slots_cons : slots ⟨f :: rest, base⟩ =
    .pending f.ref f.pc f.cursor.isSome f.func :: (f.toKeeping.slots ++ slots ⟨rest, base⟩) := by
  simp [slots, Activation.slots]

theorem takeCursor_slots {k : Keeping} {cursor : MatrixCursor} (hk : k.cursor = some cursor)
    (rest : List Slot) : takeCursor (k.slots ++ rest) = .ok (cursor, rest) := by
  simp [Keeping.slots, hk, takeCursor]

theorem takeCursor_base {cursor : MatrixCursor} (hk : base.cursor = some cursor) :
    takeCursor (slots ⟨[], base⟩) = .ok (cursor, []) := by
  simpa [slots] using takeCursor_slots hk []

/-! ## Operations on the call stack -/

theorem layout_push (h : (a.called.length : Int) ≠ limit) (ref : ProgramRef) (pc : Int) :
    (layout limit solving integrating a).push ref pc =
      .ok (layout limit (solving || ref = .solver) (integrating || ref = .integrator)
        { a with called := { ref := ref, pc := pc } :: a.called }) := by
  simp [push, layout, h, slots_cons, Keeping.slots]

theorem layout_pop_base :
    (layout limit solving integrating ⟨[], base⟩).pop =
      .ok ({ frame := ⟨.none, -1, base.func⟩, cursor := base.cursor, top := true },
        layout limit solving integrating {}) := by
  cases hk : base.cursor with
  | none =>
    simp only [pop, popBase, layout, slots, Keeping.slots, hk, flatMap_nil,
      append_nil, length_nil, Option.isSome_none, Bool.false_eq_true, if_true, if_false]
    rfl
  | some cursor =>
    simp only [pop, popBase, layout, hk, takeCursor_base hk]
    rfl

theorem layout_pop_level :
    (layout limit solving integrating ⟨f :: rest, base⟩).pop =
      .ok ({ frame := f.frame, cursor := f.cursor },
        layout limit (solving && f.ref ≠ .solver) (integrating && f.ref ≠ .integrator)
          ⟨rest, base⟩) := by
  -- no level is marked to stop at, and the level below is not negative
  have hstop : ¬ (rest.length : Int) ≤ -1 := by omega
  cases hk : f.cursor with
  | none =>
    simp only [pop, layout, slots_cons, hk, Option.isSome_none, Keeping.slots,
      nil_append, length_cons, Nat.succ_ne_zero, if_false, Bool.false_eq_true,
      Nat.add_sub_cancel, hstop, decide_false, ne_eq, decide_not, bind_pure_comp, map_pure]
    rfl
  | some cursor =>
    simp only [pop, layout, slots_cons, hk, Option.isSome_some, takeCursor_slots hk,
      length_cons, Nat.succ_ne_zero, if_false, if_true, Nat.add_sub_cancel, hstop, decide_false,
      ne_eq, decide_not, bind_pure_comp]
    rfl

theorem layout_pushCursor (cursor : MatrixCursor) :
    (layout limit solving integrating a).pushCursor cursor =
      .ok (layout limit solving integrating
        (a.update fun k => { k with cursor := k.cursor.or (some cursor) })) := by
  obtain ⟨_ | ⟨f, rest⟩, base⟩ := a
  · cases hk : base.cursor <;>
      simp [pushCursor, layout, update, slots, Keeping.slots, hk]
  · cases hk : f.cursor <;>
      simp [pushCursor, layout, update, slots_cons, Keeping.slots, hk]

theorem layout_popCursor (name : Bytes) :
    (layout limit solving integrating a).popCursor name =
      if a.current.cursor.any (·.name = name) then
        .ok (a.current.cursor, layout limit solving integrating
          (a.update fun k => { k with cursor := none }))
      else .ok (none, layout limit solving integrating a) := by
  obtain ⟨_ | ⟨f, rest⟩, base⟩ := a
  · cases hk : base.cursor with
    | none => simp [popCursor, layout, current, hk]
    | some cursor =>
      simp only [popCursor, layout, current, hk, takeCursor_base hk]
      by_cases hname : cursor.name = name <;>
        simp [hname, update, slots, Keeping.slots, hk, bind, Except.bind, pure, Except.pure]
  · cases hk : f.cursor with
    | none => simp [popCursor, layout, slots_cons, current, hk]
    | some cursor =>
      obtain ⟨own, row, col⟩ := cursor
      by_cases hname : own = name <;>
        simp [popCursor, takeCursor, layout, current, update, slots_cons,
          Keeping.slots, hk, hname, bind, Except.bind, pure, Except.pure]

theorem layout_markFunc :
    (layout limit solving integrating a).markFunc =
      .ok (layout limit solving integrating (a.update fun k => { k with func := true })) := by
  obtain ⟨_ | ⟨f, rest⟩, base⟩ := a
  · simp [markFunc, layout, update, slots, Keeping.slots]
  · simp [markFunc, layout, update, slots_cons, Keeping.slots]

theorem layout_hasFunc : (layout limit solving integrating a).hasFunc = .ok a.current.func := by
  obtain ⟨_ | ⟨f, rest⟩, base⟩ := a
  · simp [hasFunc, layout, current]
  · simp [hasFunc, layout, slots_cons, current]

theorem layout_frames :
    (layout limit solving integrating a).frames = a.called.map Activation.frame := by
  obtain ⟨called, base⟩ := a
  induction called with
  | nil => cases hk : base.cursor <;> simp [frames, layout, slots, Keeping.slots, hk]
  | cons f rest ih =>
    rw [frames, layout] at ih ⊢
    cases hk : f.cursor <;>
      simpa [slots_cons, Keeping.slots, hk, Activation.frame] using ih

theorem length_slots : a.slots.length = a.called.length + 2 * a.cursors := by
  obtain ⟨called, base⟩ := a
  have hsaved (k : Keeping) : k.slots.length = 2 * if k.cursor.isSome then 1 else 0 := by
    cases hk : k.cursor <;> simp [Keeping.slots, hk]
  induction called with
  | nil => simp [slots, cursors, hsaved]
  | cons f rest ih =>
    rw [slots_cons]
    simp only [length_cons, length_append, ih, hsaved, cursors, countP_cons]
    omega

/-- The call stack holds these activations. -/
def Represents (limit : Int) (a : Activations) (c : CallStack) : Prop :=
  ∃ solving integrating, c = layout limit solving integrating a

/-! ## Requests to a session -/

section Session

open Session

variable {s : Session}

theorem Represents.popReturn_base (h : Represents limit ⟨[], base⟩ s.calls) :
    ∃ s', popReturn s =
        .ok { frame := ⟨.none, -1, base.func⟩, cursor := base.cursor, top := true } s' ∧
      Represents limit {} s'.calls := by
  obtain ⟨solving, integrating, hcalls⟩ := h
  obtain ⟨store, hrun, -⟩ := popReturn_of_pop (hcalls ▸ layout_pop_base)
  exact ⟨_, hrun, _, _, rfl⟩

theorem Represents.popReturn_level (h : Represents limit ⟨f :: rest, base⟩ s.calls) :
    ∃ s', popReturn s = .ok { frame := f.frame, cursor := f.cursor } s' ∧
      Represents limit ⟨rest, base⟩ s'.calls := by
  obtain ⟨solving, integrating, hcalls⟩ := h
  obtain ⟨store, hrun, -⟩ := popReturn_of_pop (hcalls ▸ layout_pop_level)
  exact ⟨_, hrun, _, _, rfl⟩

theorem Represents.popReturns (h : Represents limit a s.calls) :
    ∃ s', Session.popReturns (a.called.length + 1) s = .ok () s' ∧
      Represents limit {} s'.calls := by
  obtain ⟨called, base⟩ := a
  induction called generalizing s with
  | nil =>
    obtain ⟨s', hrun, hs'⟩ := h.popReturn_base
    exact ⟨s', by rw [length_nil, Session.popReturns, bind_ok hrun]; rfl, hs'⟩
  | cons f rest ih =>
    obtain ⟨s', hrun, hs'⟩ := h.popReturn_level
    obtain ⟨s'', hrun', hs''⟩ := ih hs'
    exact ⟨s'', by rw [length_cons, Session.popReturns, bind_ok hrun]; exact hrun', hs''⟩

theorem Represents.unwindFrom (h : Represents limit a s.calls) :
    ∃ s' found, Session.unwindFrom a.called.length false s = .ok (false, found) s' ∧
      a.perform limit .unwind = (.ok (.unwound false found), (a.perform limit .unwind).2) ∧
      Represents limit (a.perform limit .unwind).2 s'.calls := by
  obtain ⟨called, base⟩ := a
  induction called generalizing s with
  | nil => exact ⟨s, false, rfl, rfl, h⟩
  | cons f rest ih =>
    obtain ⟨s', hrun, hs'⟩ := h.popReturn_level
    rw [length_cons, Session.unwindFrom, bind_ok hrun]
    by_cases hsolver : f.ref = .solver
    · refine ⟨s', true, ?_, ?_, ?_⟩
      · simp [Activation.frame, hsolver]
      · simp [perform, hsolver]
      · simpa [perform, hsolver] using hs'
    · -- a level that is not the solver's is passed over on both sides
      obtain ⟨s'', found, hrun', hanswer, hs''⟩ := ih hs'
      have hskip : perform limit ⟨f :: rest, base⟩ .unwind
          = perform limit ⟨rest, base⟩ .unwind := by
        simp [perform, hsolver]
      rw [hskip]
      refine ⟨s'', found, ?_, hanswer, hs''⟩
      simpa [Activation.frame, hsolver] using hrun'

theorem onCalls_of_ok {α : Type} {op : CallStack → Except Error (α × CallStack)} {x : α}
    {calls : CallStack} (h : op s.calls = .ok (x, calls)) :
    (onCalls op).attempt s = (.ok x, { s with calls := calls }) := by
  simp only [Machine.attempt, onCalls, get_bind, h]
  rfl

/-- One request: the session answers as the activations do, and goes on holding them. -/
theorem Represents.perform (h : Represents limit a s.calls) (r : CallRequest) :
    (r.perform.attempt s).1 = (a.perform limit r).1 ∧
      Represents limit (a.perform limit r).2 (r.perform.attempt s).2.calls := by
  obtain ⟨solving, integrating, hcalls⟩ := id h
  cases r with
  | push ref pc =>
    by_cases hfull : (a.called.length : Int) = limit
    · -- the request fails before anything is changed
      have hpush : s.calls.push ref pc = .error .returnStackFull := hcalls ▸ if_pos hfull
      have hrun : pushReturn ref pc s = .error .returnStackFull s := by
        rw [pushReturn, get_bind, hpush]
        rfl
      simp only [Machine.attempt, CallRequest.perform, bind_error hrun,
        Activations.perform, if_pos hfull]
      exact ⟨trivial, h⟩
    · have hpush := hcalls ▸ layout_push hfull ref pc
      obtain ⟨s', hrun, hs'⟩ : ∃ s', pushReturn ref pc s = .ok () s' ∧ s'.calls =
          layout limit (solving || ref = .solver) (integrating || ref = .integrator)
            { a with called := { ref := ref, pc := pc } :: a.called } := by
        rw [pushReturn, get_bind, hpush]
        exact ⟨_, rfl, rfl⟩
      simp only [Machine.attempt, CallRequest.perform, bind_ok hrun,
        Activations.perform, if_neg hfull]
      exact ⟨rfl, _, _, hs'⟩
  | pop =>
    obtain ⟨_ | ⟨f, rest⟩, base⟩ := a
    · obtain ⟨s', hrun, hs'⟩ := h.popReturn_base
      simp only [Machine.attempt, CallRequest.perform, bind_ok hrun, Activations.perform]
      exact ⟨rfl, hs'⟩
    · obtain ⟨s', hrun, hs'⟩ := h.popReturn_level
      simp only [Machine.attempt, CallRequest.perform, bind_ok hrun, Activations.perform]
      exact ⟨rfl, hs'⟩
  | saveCursor cursor =>
    rw [CallRequest.perform, onCalls_of_ok (by rw [hcalls, layout_pushCursor]; rfl)]
    exact ⟨rfl, _, _, rfl⟩
  | dropCursor name =>
    have hdrop := hcalls ▸ layout_popCursor name
    by_cases hname : a.current.cursor.any (·.name = name)
    · rw [if_pos hname] at hdrop
      rw [CallRequest.perform, onCalls_of_ok (by rw [hdrop]; rfl), Activations.perform,
        if_pos hname]
      exact ⟨rfl, _, _, rfl⟩
    · rw [if_neg hname] at hdrop
      rw [CallRequest.perform, onCalls_of_ok (by rw [hdrop]; rfl), Activations.perform,
        if_neg hname]
      exact ⟨rfl, h⟩
  | markFunc =>
    rw [CallRequest.perform, onCalls_of_ok (by rw [hcalls, layout_markFunc]; rfl)]
    exact ⟨rfl, _, _, rfl⟩
  | clear =>
    obtain ⟨s', hrun, hs'⟩ := h.popReturns
    have hlevel : s.calls.level = a.called.length := by rw [hcalls]; rfl
    have hclear : clearCalls s = .ok () s' := by
      rw [clearCalls, get_bind, hlevel]
      exact hrun
    simp only [Machine.attempt, CallRequest.perform, bind_ok hclear, Activations.perform]
    exact ⟨rfl, hs'⟩
  | unwind =>
    obtain ⟨s', found, hrun, hanswer, hs'⟩ := h.unwindFrom
    have hlevel : s.calls.level = a.called.length := by rw [hcalls]; rfl
    have hunwind : unwindUntilSolve s = .ok (false, found) s' := by
      rw [unwindUntilSolve, get_bind, hlevel]
      exact hrun
    simp only [Machine.attempt, CallRequest.perform, bind_ok hunwind]
    exact ⟨(congrArg Prod.fst hanswer).symm, hs'⟩

end Session

/-! ## Sequences of requests -/

theorem length_perform_le (h : (a.called.length : Int) ≤ limit) (r : CallRequest) :
    ((a.perform limit r).2.called.length : Int) ≤ limit := by
  have hupdate (change : Keeping → Keeping) :
      (a.update change).called.length = a.called.length := by
    unfold update
    split <;> simp_all
  cases r with
  | push ref pc =>
    rw [perform]
    split
    · exact h
    · simp only [length_cons]
      omega
  | pop =>
    rw [perform]
    split
    · simp only [length_nil]
      omega
    · next hcalled =>
      rw [hcalled, length_cons] at h
      simp only
      omega
  | saveCursor cursor => simpa only [perform, hupdate] using h
  | dropCursor name =>
    rw [perform]
    split
    · simpa only [hupdate] using h
    · exact h
  | markFunc => simpa only [perform, hupdate] using h
  | clear =>
    simp only [perform, length_nil]
    omega
  | unwind =>
    have hdrop := (dropWhile_suffix (l := a.called) (·.ref ≠ .solver)).length_le
    rw [perform]
    split
    · simp only [length_nil]
      omega
    · next hcalled =>
      rw [hcalled, length_cons] at hdrop
      simp only
      omega

theorem error_perform {e : Error} {r : CallRequest} (h : (a.perform limit r).1 = .error e) :
    e = .returnStackFull := by
  cases r <;> simp only [perform] at h <;> (try split at h) <;> simp_all

/-- What can be seen of a call stack is what the activations say. -/
structure Observed (limit : Int) (a : Activations) (c : CallStack) : Prop where
  depth : c.level = a.called.length
  within : (c.level : Int) ≤ limit
  size : c.slots.length = c.level + 2 * a.cursors
  func : c.hasFunc = .ok a.current.func
  frames : c.frames = a.called.map Activation.frame

theorem Represents.observed {c : CallStack} (h : Represents limit a c)
    (hle : (a.called.length : Int) ≤ limit) : Observed limit a c := by
  obtain ⟨solving, integrating, rfl⟩ := h
  exact ⟨rfl, hle, length_slots, layout_hasFunc, layout_frames⟩

end Activations

/-- A sequence of requests: the session gives the answers of the activations, all errors are calls
    that would be too deep, and what can be seen at the end is what the activations say. -/
theorem CallRequest.runs_of_represents {limit : Int} {a : Activations} {s : Session}
    (h : a.Represents limit s.calls) (hle : (a.called.length : Int) ≤ limit)
    (rs : List CallRequest) :
    (runs rs s).1 = (a.runs limit rs).1 ∧
      (∀ e, .error e ∈ (runs rs s).1 → e = .returnStackFull) ∧
      (a.runs limit rs).2.Observed limit (runs rs s).2.calls := by
  -- the activations and the session go on together, whether or not a request failed
  induction rs generalizing a s with
  | nil => exact ⟨rfl, by simp [runs], h.observed hle⟩
  | cons r rs ih =>
    obtain ⟨hanswer, hrest⟩ := h.perform r
    obtain ⟨hanswers, herrors, hobserved⟩ := ih hrest (a.length_perform_le hle r)
    refine ⟨?_, ?_, hobserved⟩
    · simp only [runs, Activations.runs, hanswer, hanswers]
    · intro e he
      rcases mem_cons.1 he with hfirst | hlater
      · exact a.error_perform (hanswer.symm.trans hfirst.symm)
      · exact herrors e hlater

/-- A call stack is a stack of activations. From an empty one, whatever else the session holds,
    every sequence of requests is answered as the activations answer it and nothing crashes;
    afterwards the depth, the number of slots, the flag of the current level and the pending returns
    are theirs. -/
theorem CallRequest.runs_refine (s : Session) (max : Int) (rs : List CallRequest) :
    let limit := if max ≤ 0 then 1024 else max
    let (answers, s') := runs rs { s with calls := .new max }
    let (expected, a) := Activations.runs limit {} rs
    answers = expected ∧ (∀ e, .error e ∈ answers → e = .returnStackFull) ∧
      a.Observed limit s'.calls := by
  have hle : (0 : Int) ≤ if max ≤ 0 then 1024 else max := by
    split <;> omega
  exact runs_of_represents ⟨false, false, rfl⟩ hle rs

end Keystroke
