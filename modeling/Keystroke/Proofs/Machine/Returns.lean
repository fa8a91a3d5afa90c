import Keystroke.Proofs.Machine.Perform
import Mathlib.Logic.Relation

set_option autoImplicit false

/-! # Dropping pending returns

A call stack that came about by its operations has, for each pending return, the slots of the cursor
that its level saved (`CallStack.Arises.wellFormed`), so all levels can be left
(`Session.reset_eq_ok`). Of the store this changes only how many returns into each program are
noted. -/

namespace Keystroke

variable {popped : Popped} {ref : ProgramRef} {pc : Int}

open Operation

variable {c c' : CallStack} {store : Store}

/-! ## Call stacks -/

namespace CallStack

/-- The call stacks that operations make. -/
inductive Arises : CallStack → Prop
  | new (max : Int) : Arises (new max)
  | push {c c' : CallStack} {ref : ProgramRef} {pc : Int} (h : Arises c)
      (hrun : c.push ref pc = .ok c') : Arises c'
  | pop {c c' : CallStack} {popped : Popped} (h : Arises c) (hrun : c.pop = .ok (popped, c')) :
      Arises c'
  | pushCursor {c c' : CallStack} {cursor : MatrixCursor} (h : Arises c)
      (hrun : c.pushCursor cursor = .ok c') : Arises c'
  | popCursor {c c' : CallStack} {name : Bytes} {cursor : Option MatrixCursor} (h : Arises c)
      (hrun : c.popCursor name = .ok (cursor, c')) : Arises c'
  | markFunc {c c' : CallStack} (h : Arises c) (hrun : c.markFunc = .ok c') : Arises c'
  | stopAt {c : CallStack} (level : Int) (h : Arises c) : Arises { c with stopLevel := level }

/-- The slots of a cursor, if one was saved. -/
def Saved (cursor : Bool) (slots : List Slot) : Prop :=
  if cursor then ∃ name row col, slots = [.cursorName name, .cursorPlace row col] else slots = []

/-- The slots of some pending returns, on those of what level zero saved. -/
inductive Stacked (base : Bool) : Nat → List Slot → Prop
  | base {slots : List Slot} (h : Saved base slots) : Stacked base 0 slots
  | level {n : Nat} {saved rest : List Slot} {ref : ProgramRef} {pc : Int}
      {hasCursor hasFunc : Bool} (h : Saved hasCursor saved) (hrest : Stacked base n rest) :
      Stacked base (n + 1) (.pending ref pc hasCursor hasFunc :: (saved ++ rest))

/-- Every level has its slots. -/
def WellFormed (c : CallStack) : Prop := Stacked c.baseCursor c.level c.slots

/-- An empty call stack with the same bound, as leaving level zero makes it. -/
structure Emptied (c c' : CallStack) : Prop where
  slots : c'.slots = []
  level : c'.level = 0
  max : c'.max = c.max
  cursor : c'.baseCursor = false
  func : c'.baseFunc = false
  stopLevel : c'.stopLevel = -1

/-- Leaving a level gives back its return and its mark; the base has no return, and the stack is
    empty then. -/
theorem exists_pop (h : c.WellFormed) :
    ∃ popped c', c.pop = .ok (popped, c') ∧ c'.WellFormed ∧
      c.hasFunc = .ok popped.frame.hasFunc ∧
      c.frames = (if popped.top then [] else [popped.frame]) ++ c'.frames ∧
      (c.level = 0 → c.Emptied c') ∧ ∀ n, c.level = n + 1 → c'.level = n ∧ c'.max = c.max := by
  obtain ⟨slots, level, max, baseCursor, baseFunc, solving, integrating, stopLevel⟩ := c
  cases h with
  | base h =>
    cases baseCursor with
    | false =>
      obtain rfl : slots = [] := h
      exact ⟨_, _, rfl, .base rfl, rfl, rfl, fun _ => ⟨rfl, rfl, rfl, rfl, rfl, rfl⟩, nofun⟩
    | true =>
      obtain ⟨name, row, col, rfl⟩ := h
      exact ⟨_, _, rfl, .base rfl, rfl, rfl, fun _ => ⟨rfl, rfl, rfl, rfl, rfl, rfl⟩, nofun⟩
  | @level n saved rest ref pc hasCursor hasFunc h hrest =>
    have hlower (k : Nat) (hk : n + 1 = k + 1) : n = k ∧ max = max := ⟨Nat.succ.inj hk, rfl⟩
    cases hasCursor with
    | false =>
      obtain rfl : saved = [] := h
      exact ⟨_, _, rfl, hrest, rfl, rfl, nofun, hlower⟩
    | true =>
      obtain ⟨name, row, col, rfl⟩ := h
      exact ⟨_, _, rfl, hrest, rfl, rfl, nofun, hlower⟩

theorem Emptied.wellFormed (h : c.Emptied c') : c'.WellFormed := by
  rw [WellFormed, h.cursor, h.level, h.slots]
  exact .base rfl

section

variable (h : c.WellFormed)

include h

theorem WellFormed.pop (hrun : c.pop = .ok (popped, c')) : c'.WellFormed := by
  obtain ⟨popped', c'', hpop, hwf, -⟩ := exists_pop h
  obtain ⟨-, rfl⟩ := Prod.mk.inj (Except.ok.inj (hpop.symm.trans hrun))
  exact hwf

theorem WellFormed.push (hrun : c.push ref pc = .ok c') : c'.WellFormed := by
  unfold CallStack.push at hrun
  split at hrun
  · cases hrun
  · obtain rfl := Except.ok.inj hrun
    exact .level (show Saved false [] from rfl) h

theorem WellFormed.pushCursor {cursor : MatrixCursor}
    (hrun : c.pushCursor cursor = .ok c') : c'.WellFormed := by
  obtain ⟨slots, level, max, baseCursor, baseFunc, solving, integrating, stopLevel⟩ := c
  cases h with
  | base h =>
    cases baseCursor with
    | false =>
      obtain rfl : slots = [] := h
      obtain rfl := Except.ok.inj hrun
      exact .base ⟨_, _, _, rfl⟩
    | true =>
      obtain rfl := Except.ok.inj hrun
      exact .base h
  | @level _ saved rest ref pc hasCursor hasFunc h hrest =>
    cases hasCursor with
    | false =>
      obtain rfl : saved = [] := h
      obtain rfl := Except.ok.inj hrun
      exact .level ⟨_, _, _, rfl⟩ hrest
    | true =>
      obtain rfl := Except.ok.inj hrun
      exact .level h hrest

theorem WellFormed.popCursor {name : Bytes} {found : Option MatrixCursor}
    (hrun : c.popCursor name = .ok (found, c')) : c'.WellFormed := by
  obtain ⟨slots, level, max, baseCursor, baseFunc, solving, integrating, stopLevel⟩ := c
  cases h with
  | base h =>
    cases baseCursor with
    | false =>
      obtain ⟨-, rfl⟩ := Prod.mk.inj (Except.ok.inj hrun)
      exact .base h
    | true =>
      obtain ⟨saved, row, col, rfl⟩ := h
      change (if saved = name then _ else _) = _ at hrun
      split at hrun
      · obtain ⟨-, rfl⟩ := Prod.mk.inj (Except.ok.inj hrun)
        exact .base rfl
      · obtain ⟨-, rfl⟩ := Prod.mk.inj (Except.ok.inj hrun)
        exact .base ⟨_, _, _, rfl⟩
  | @level _ saved rest ref pc hasCursor hasFunc h hrest =>
    cases hasCursor with
    | false =>
      obtain ⟨-, rfl⟩ := Prod.mk.inj (Except.ok.inj hrun)
      exact .level h hrest
    | true =>
      obtain ⟨saved, row, col, rfl⟩ := h
      change (if saved = name then _ else _) = _ at hrun
      split at hrun
      · obtain ⟨-, rfl⟩ := Prod.mk.inj (Except.ok.inj hrun)
        exact .level (show Saved false [] from rfl) hrest
      · obtain ⟨-, rfl⟩ := Prod.mk.inj (Except.ok.inj hrun)
        exact .level ⟨_, _, _, rfl⟩ hrest

theorem WellFormed.markFunc (hrun : c.markFunc = .ok c') : c'.WellFormed := by
  obtain ⟨slots, level, max, baseCursor, baseFunc, solving, integrating, stopLevel⟩ := c
  cases h with
  | base h =>
    obtain rfl := Except.ok.inj hrun
    exact .base h
  | level h hrest =>
    obtain rfl := Except.ok.inj hrun
    exact .level h hrest

theorem WellFormed.exists_markFunc : ∃ c', c.markFunc = .ok c' := by
  obtain ⟨slots, level, max, baseCursor, baseFunc, solving, integrating, stopLevel⟩ := c
  cases h with
  | base h => exact ⟨_, rfl⟩
  | level h hrest => exact ⟨_, rfl⟩

end

theorem Arises.wellFormed (h : c.Arises) : c.WellFormed := by
  induction h with
  | new max => exact .base rfl
  | push _ hrun ih => exact ih.push hrun
  | pop _ hrun ih => exact ih.pop hrun
  | pushCursor _ hrun ih => exact ih.pushCursor hrun
  | popCursor _ hrun ih => exact ih.popCursor hrun
  | markFunc _ hrun ih => exact ih.markFunc hrun
  | stopAt level _ ih => exact ih

/-! ### The returns on it -/

theorem frames_push (h : c.push ref pc = .ok c') : c'.frames = ⟨ref, pc, false⟩ :: c.frames := by
  unfold push at h
  split at h
  · cases h
  · obtain rfl := Except.ok.inj h
    rfl

theorem frames_markFunc (h : c.markFunc = .ok c') :
    c'.frames.map (fun f => (f.ref, f.pc)) = c.frames.map (fun f => (f.ref, f.pc)) := by
  unfold markFunc at h
  split at h
  · obtain rfl := Except.ok.inj h
    rfl
  · split at h
    · next hslots =>
      obtain rfl := Except.ok.inj h
      simp [frames, hslots]
    · cases h

end CallStack

/-! ## Sessions -/

/-- Notes of pending returns are made or taken back. -/
def Store.Renoted : Store → Store → Prop := Relation.ReflTransGen Store.Notes

namespace Session

variable {s : Session} {n : Nat}

theorem popReturn_of_pop {calls : CallStack} (h : s.calls.pop = .ok (popped, calls)) :
    ∃ store, popReturn s = .ok popped { s with calls := calls, store := store } ∧
      s.store.Renoted store := by
  refine ⟨_, by rw [popReturn, get_bind, h]; rfl, ?_⟩
  split
  · exact .refl
  · exact .refl
  · split
    · exact .refl
    · exact .single (Store.notes_release _ _)

theorem popReturns_eq_ok (h : s.calls.WellFormed) (hlevel : s.calls.level = n) :
    ∃ calls store, popReturns (n + 1) s = .ok () { s with calls := calls, store := store } ∧
      s.calls.Emptied calls ∧ s.store.Renoted store := by
  induction n generalizing s with
  | zero =>
    obtain ⟨popped, calls, hpop, -, -, -, hempty, -⟩ := CallStack.exists_pop h
    obtain ⟨store, hrun, hstore⟩ := popReturn_of_pop hpop
    exact ⟨calls, store, by rw [popReturns, bind_ok hrun]; rfl, hempty hlevel, hstore⟩
  | succ n ih =>
    obtain ⟨popped, calls, hpop, hwf, -, -, -, hlower⟩ := CallStack.exists_pop h
    obtain ⟨hlow, hmax⟩ := hlower n hlevel
    obtain ⟨store, hrun, hstore⟩ := popReturn_of_pop hpop
    obtain ⟨calls', store', hrun', hempty, hstore'⟩ := @ih { s with calls := calls, store := store }
      hwf hlow
    refine ⟨calls', store', by rw [popReturns, bind_ok hrun]; exact hrun', ?_, hstore.trans hstore'⟩
    exact { hempty with max := hempty.max.trans hmax }

theorem clearReturns_eq_ok (h : s.calls.WellFormed) :
    ∃ calls store, clearReturns s = .ok () { s with
        calls := calls, store := store, running := false, locals := [], funcs := [] } ∧
      s.calls.Emptied calls ∧ s.store.Renoted store := by
  obtain ⟨calls, store, hrun, hempty, hstore⟩ := @popReturns_eq_ok { s with running := false } _
    h rfl
  have hclear : clearCalls { s with running := false } = _ := hrun
  refine ⟨calls, store, ?_, hempty, hstore⟩
  rw [clearReturns, modify_bind, bind_ok hclear]
  rfl

theorem reset_eq_ok (h : s.calls.WellFormed) :
    ∃ calls store, reset s = .ok () { s with
        calls := calls, store := store, running := false, locals := [], funcs := [], stack := [] } ∧
      s.calls.Emptied calls ∧ s.store.Renoted store := by
  obtain ⟨calls, store, hrun, hempty, hstore⟩ := clearReturns_eq_ok h
  exact ⟨calls, store, by rw [reset, bind_ok hrun]; rfl, hempty, hstore⟩

/-- The sessions differ in their pending returns at most, and the first one's programs are those of
    the store. -/
structure Follows (s : Session) (store : Store) (s' : Session) : Prop where
  store : store.Renoted s'.store
  calls : s'.calls.WellFormed
  max : s'.calls.max = s.calls.max
  vars : s'.vars = s.vars
  lastX : s'.lastX = s.lastX
  solvingFor : s'.solvingFor = s.solvingFor
  stepLimit : s'.stepLimit = s.stepLimit

/-- An operation on the store that edits no user program leaves the rest of the session alone. -/
theorem edit_of_ok {α : Type} {op : Edit α} {a : α} (hop : op s.store = .ok a store)
    (hedits : store.edits = s.store.edits) : edit op s = .ok a { s with store := store } := by
  simp only [edit, hop, hedits, if_true]

theorem edit_of_error {α : Type} {op : Edit α} {e : Error} (hop : op s.store = .error e store)
    (hedits : store.edits = s.store.edits) : edit op s = .error e { s with store := store } := by
  simp only [edit, hop, hedits, if_true]

theorem edit_eq_ok {α : Type} {op : Edit α} {a : α} (h : s.calls.WellFormed)
    (hop : op s.store = .ok a store) : ∃ s', edit op s = .ok a s' ∧ s.Follows store s' := by
  unfold edit
  rw [hop]
  by_cases hedits : store.edits = s.store.edits
  · refine ⟨{ s with store := store }, by simp [hedits], .refl, h, rfl, rfl, rfl, rfl, rfl⟩
  · obtain ⟨calls, store', hrun, hempty, hstore⟩ := @clearReturns_eq_ok { s with store := store } h
    refine ⟨{ s with
      calls := calls, store := store', running := false, locals := [], funcs := [] }, ?_, hstore,
      hempty.wellFormed, hempty.max, rfl, rfl, rfl, rfl⟩
    simp only [hedits, if_false, hrun]

theorem exists_of_edit_eq_ok {α : Type} {op : Edit α} {a : α} {s' : Session}
    (h : s.calls.WellFormed) (hedit : edit op s = .ok a s') :
    ∃ store, op s.store = .ok a store ∧ s.Follows store s' := by
  cases hop : op s.store with
  | ok b store =>
    obtain ⟨t, ht, hfollows⟩ := edit_eq_ok h hop
    obtain ⟨rfl, rfl⟩ := EStateM.Result.ok.inj (ht.symm.trans hedit)
    exact ⟨store, rfl, hfollows⟩
  | error failure store =>
    simp only [edit, hop] at hedit
    split at hedit <;> cases hedit

end Session

end Keystroke
