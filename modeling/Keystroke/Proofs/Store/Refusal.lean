import Keystroke.Machine.Session
import Keystroke.Proofs.Store.Labels

set_option autoImplicit false

/-! # Requests that fail

A request that fails in the ordinary way leaves the store as it was, to the last byte of capacity
and the last entry of the label table, and the session around it drops no pending return
(`Request.unchanged_of_refused`). An operation first reads and checks, then takes memory, which it
may be refused (`Operation.Refuses`), and from there on it cannot fail any more but by a crash
(`Operation.Sure`). -/

namespace Keystroke

/-! ## Ways to fail -/

namespace Operation

variable {σ α β : Type} {x : EStateM Error σ α} {f : α → EStateM Error σ β} {s t : σ} {e : Error}

theorem bind_eq_error (h : (x >>= f) s = .error e t) :
    x s = .error e t ∨ ∃ a s', x s = .ok a s' ∧ f a s' = .error e t := by
  cases hx : x s with
  | ok a s' =>
    rw [bind_ok hx] at h
    exact .inr ⟨a, s', rfl, h⟩
  | error e' s' =>
    rw [bind_error hx] at h
    obtain ⟨rfl, rfl⟩ := EStateM.Result.error.inj h
    exact .inl rfl

/-- The operation fails by a crash only. -/
def Sure (x : EStateM Error σ α) : Prop := ∀ s e t, x s = .error e t → e.isCrash = true

/-- A failure of the operation that is no crash leaves the state as it was. -/
def Refuses (x : EStateM Error σ α) : Prop :=
  ∀ s e t, x s = .error e t → e.isCrash = false → t = s

/-- The operation leaves the state as it is. -/
def Peeks (x : EStateM Error σ α) : Prop := ∀ s, state (x s) = s

namespace Sure

theorem pure (a : α) : Sure (pure a : EStateM Error σ α) := fun _ _ _ h => by cases h

theorem bind (hx : Sure x) (hf : ∀ a, Sure (f a)) : Sure (x >>= f) := by
  intro s e t h
  rcases bind_eq_error h with h | ⟨a, s', -, h⟩
  · exact hx s e t h
  · exact hf a s' e t h

theorem get_bind {g : σ → EStateM Error σ β} (hg : ∀ s, Sure (g s)) : Sure (get >>= g) :=
  fun s => hg s s

theorem modify (g : σ → σ) : Sure (modify g : EStateM Error σ Unit) := fun _ _ _ h => by cases h

theorem set (t : σ) : Sure (set t : EStateM Error σ PUnit) := fun _ _ _ h => by cases h

theorem refuses (hx : Sure x) : Refuses x := by
  intro s e t h he
  rw [hx s e t h] at he
  cases he

end Sure

namespace Refuses

theorem bind (hx : Refuses x) (hf : ∀ a, Sure (f a)) : Refuses (x >>= f) := by
  intro s e t h he
  rcases bind_eq_error h with h | ⟨a, s', -, h⟩
  · exact hx s e t h he
  · rw [hf a s' e t h] at he
    cases he

theorem get_bind {g : σ → EStateM Error σ β} (hg : ∀ s, Refuses (g s)) : Refuses (get >>= g) :=
  fun s => hg s s

end Refuses

namespace Peeks

theorem pure (a : α) : Peeks (pure a : EStateM Error σ α) := fun _ => rfl

theorem throw (e : Error) : Peeks (throw e : EStateM Error σ α) := fun _ => rfl

theorem get_bind {g : σ → EStateM Error σ β} (hg : ∀ s, Peeks (g s)) : Peeks (get >>= g) :=
  fun s => hg s s

theorem refuses (hx : Peeks x) : Refuses x := by
  intro s e t h _
  have hs := hx s
  rwa [h] at hs

theorem bind (hx : Peeks x) (hf : ∀ a, Refuses (f a)) : Refuses (x >>= f) := by
  intro s e t h he
  have hs := hx s
  rcases bind_eq_error h with h | ⟨a, s', hok, hrest⟩
  · rwa [h] at hs
  · rw [hok] at hs
    obtain rfl : s' = s := hs
    exact hf a s' e t hrest he

end Peeks

theorem Refuses.throw (e : Error) : Refuses (throw e : EStateM Error σ α) := (Peeks.throw e).refuses

end Operation

open Operation Sure Session

/-- The computation fails by a crash only. -/
def Crashes {α : Type} (r : Except Error α) : Prop := ∀ e, r = .error e → e.isCrash = true

namespace Crashes

variable {α β : Type} {r : Except Error α} {f : α → Except Error β}

theorem ok (a : α) : Crashes (.ok a : Except Error α) := fun _ h => by cases h

theorem outOfBounds : Crashes (.error .outOfBounds : Except Error α) := by
  intro e h
  cases h
  rfl

theorem bind (hr : Crashes r) (hf : ∀ a, Crashes (f a)) : Crashes (r >>= f) := by
  intro e h
  cases r with
  | ok a => exact hf a e h
  | error e' =>
    obtain rfl := Except.error.inj h
    exact hr e' rfl

theorem map {g : α → β} (hr : Crashes r) : Crashes (r.map g) := by
  intro e h
  cases r with
  | ok a => cases h
  | error e' =>
    obtain rfl := Except.error.inj h
    exact hr e' rfl

theorem sure_edit (hr : Crashes r) : Sure (Edit.ofExcept r) := by
  intro s e t h
  cases r with
  | ok a => cases h
  | error e' =>
    obtain ⟨rfl, -⟩ := EStateM.Result.error.inj h
    exact hr e' rfl

theorem sure_machine (hr : Crashes r) : Sure (Machine.ofExcept r) := by
  intro s e t h
  cases r with
  | ok a => cases h
  | error e' =>
    obtain ⟨rfl, -⟩ := EStateM.Result.error.inj h
    exact hr e' rfl

end Crashes

/-! ## Parts of edits -/

namespace Store

variable {α : Type}

theorem peeks_ofExcept (r : Except Error α) : Peeks (Edit.ofExcept r) := by
  intro s
  cases r <;> rfl

theorem peeks_getProgram (ref : ProgramRef) : Peeks (getProgram ref) := by
  intro s
  unfold getProgram
  split <;> rfl

theorem peeks_checkEditable (p : Program) : Peeks (checkEditable p) := by
  refine .get_bind fun s => ?_
  split
  · exact .throw _
  · exact .pure _

theorem peeks_resolve (line : Instr) : Peeks (resolve line) := by
  refine .get_bind fun s => ?_
  split
  · exact .pure _
  · exact .throw _

/-- Neither attempt is charged for when both are refused. -/
theorem refuses_allocate (wanted least held : Nat) : Refuses (allocate wanted least held) := by
  intro s e t h he
  unfold allocate at h
  split at h
  · split at h
    · obtain ⟨rfl, -⟩ := EStateM.Result.error.inj h
      cases he
    · cases h
  · split at h
    · cases h
    · obtain ⟨-, rfl⟩ := EStateM.Result.error.inj h
      rfl

theorem refuses_newBuffer (size : Nat) : Refuses (newBuffer size) :=
  .get_bind fun _ => (refuses_allocate _ _ _).bind fun _ => .pure _

theorem refuses_emptyProgram (generated : Bool) : Refuses (emptyProgram generated) :=
  (refuses_newBuffer _).bind fun _ => .pure _

theorem refuses_reserve (b : Buffer) (extra : Nat) : Refuses (reserve b extra) := by
  unfold reserve
  dsimp only
  split
  · exact (pure b).refuses
  · exact .get_bind fun _ => (refuses_allocate _ _ _).bind fun _ => .pure _

end Store

/-! ## Tables and targets -/

theorem crashes_labelName (rest behind : Bytes) : Crashes (labelName rest behind) := by
  unfold labelName
  split
  · exact .outOfBounds
  · dsimp only
    split
    · exact .outOfBounds
    · exact .ok _

theorem crashes_scanLabels (n : Nat) (behind : Bytes) (count pc : Nat) (rest : Bytes) :
    Crashes (scanLabels n behind count pc rest) := by
  induction count generalizing pc rest with
  | zero => cases rest <;> exact .ok _
  | succ count ih =>
    cases rest with
    | nil => exact .ok _
    | cons b rest =>
      unfold scanLabels
      split
      · exact .outOfBounds
      · -- Whether there is more to scan does not depend on the label here.
        cases lineSize (b :: rest) with
        | error fault =>
          dsimp only
          split
          · exact .ok _
          · split
            · exact (crashes_labelName _ _).bind fun _ => .ok _
            · exact .ok _
        | ok size =>
          have hmore (here : List Label) : Crashes (do
              let more ← scanLabels n behind count (pc + size) ((b :: rest).drop size)
              return here ++ more : Except Error (List Label)) := (ih _ _).bind fun _ => .ok _
          dsimp only
          split
          · exact hmore _
          · split
            · exact (crashes_labelName _ _).bind fun _ => hmore _
            · exact hmore _

theorem crashes_labelTable (n : Nat) (ps : List Program) : Crashes (labelTable n ps) := by
  induction ps generalizing n with
  | nil => exact .ok _
  | cons p ps ih => exact (crashes_scanLabels _ _ _ _ _).bind fun _ => (ih _).bind fun _ => .ok _

theorem crashes_writeTarget (text : Bytes) (pc : Nat) (t : Int32) :
    Crashes (writeTarget text pc t) := by
  unfold writeTarget
  dsimp only
  split
  · exact .outOfBounds
  · exact .ok _

theorem crashes_clearTargets (count : Nat) (rest : Bytes) : Crashes (clearTargets count rest) := by
  induction count generalizing rest with
  | zero => cases rest <;> exact .ok _
  | succ count ih =>
    cases rest with
    | nil => exact .ok _
    | cons b rest =>
      unfold clearTargets
      split
      · exact .outOfBounds
      · dsimp only
        split
        · refine (crashes_writeTarget _ _ _).bind fun rest => ?_
          split
          · exact .ok _
          · exact (ih _).bind fun _ => .ok _
        · refine (Crashes.ok (b :: rest)).bind fun rest => ?_
          split
          · exact .ok _
          · exact (ih _).bind fun _ => .ok _

namespace Store

theorem sure_rebuildLabels : Sure rebuildLabels :=
  .get_bind fun s => (crashes_labelTable 0 s.programs).sure_edit.bind fun _ => .set _

theorem sure_invalidate (ref : ProgramRef) (force : Bool) : Sure (invalidate ref force) := by
  refine .get_bind fun s => ?_
  split
  · exact .pure _
  · split
    · exact .pure _
    · exact (crashes_clearTargets _ _).sure_edit.bind fun _ => .modify _

theorem sure_edited : Sure edited := .modify _

theorem sure_finishLineEdit (ref : ProgramRef) (pc delta : Int) (isLabel : Bool) :
    Sure (finishLineEdit ref pc delta isLabel) := by
  have htargets : Sure (refreshTargets ref) := by
    refine .get_bind fun s => ?_
    split
    · exact (sure_invalidate _ _).bind fun _ => sure_edited
    · exact .pure _
  cases isLabel with
  | false => exact bind (.modify _) fun _ => htargets
  | true => exact sure_rebuildLabels.bind fun _ => htargets

theorem sure_invalidateAll (refs : List ProgramRef) : Sure (invalidateAll refs) := by
  induction refs with
  | nil => exact .pure _
  | cons ref refs ih => exact (sure_invalidate ref true).bind fun _ => ih

theorem sure_endBulkLoad : Sure endBulkLoad := by
  refine .get_bind fun s => ?_
  split
  · exact .pure _
  · refine (set _).bind fun _ => ?_
    split
    · exact sure_rebuildLabels.bind fun _ => (sure_invalidateAll _).bind fun _ =>
        sure_invalidateAll _
    · exact .pure _

/-! ## Edits -/

theorem refuses_newProgram : Refuses newProgram := by
  have hcreate (count : Nat) : Refuses (newProgram.create count) :=
    (refuses_emptyProgram false).bind fun _ => (modify _).bind fun _ =>
      sure_rebuildLabels.bind fun _ => sure_edited.bind fun _ => .pure _
  refine .get_bind fun s => ?_
  split
  · split
    · exact (pure _).refuses
    · exact hcreate _
  · exact hcreate _

theorem refuses_newEquationSlot : Refuses newEquationSlot := by
  refine (refuses_emptyProgram true).bind fun p => .get_bind fun s => ?_
  split
  · exact (set _).bind fun _ => .pure _
  · exact (set _).bind fun _ => .pure _

section

variable (ref : ProgramRef)

theorem refuses_freeEquation : Refuses (freeEquation ref) := by
  cases ref with
  | equation i =>
    refine (peeks_getProgram _).bind fun p => ?_
    split
    · exact .throw _
    · exact refuses ((modify _).bind fun _ => .modify _)
  | _ => exact .throw _

theorem refuses_splitProgram (p : Program) (pc : Nat) : Refuses (splitProgram ref p pc) := by
  cases ref with
  | user i =>
    -- Memory for the second half is taken before the first one is cut.
    refine (refuses_newBuffer _).bind fun b => ?_
    exact (modify _).bind fun _ => sure_rebuildLabels.bind fun _ =>
      (sure_invalidate _ _).bind fun _ => (sure_invalidate _ _).bind fun _ =>
        sure_edited.bind fun _ => .pure _
  | _ => exact .throw _

theorem refuses_insert (pc : Int) (line : Instr) : Refuses (insert ref pc line) := by
  -- The line is encoded and has its room before the program is touched.
  have hput (p : Program) (place : Nat) (line : Instr) : Refuses (putLine ref p place line) := by
    unfold putLine
    split
    · exact refuses_splitProgram _ _ _
    · refine (peeks_ofExcept _).bind fun code => (refuses_reserve _ _).bind fun b => ?_
      exact (modify _).bind fun _ => (sure_finishLineEdit _ _ _ _).bind fun _ => .pure _
  refine (peeks_getProgram ref).bind fun p => (peeks_checkEditable p).bind fun _ => ?_
  generalize (if pc = -1 then 0 else pc) = place
  dsimp only
  split
  · exact .throw _
  · exact (peeks_resolve line).bind fun line => hput p _ line

theorem refuses_insertAfter (pc : Int) (line : Instr) : Refuses (insertAfter ref pc line) := by
  have hinsert (place : Int) : Refuses (do
      return placed ref line place (← insert ref place line) : Edit (ProgramRef × Int)) :=
    (refuses_insert ref place line).bind fun _ => .pure _
  refine (peeks_getProgram ref).bind fun p => ?_
  dsimp only
  split
  · exact hinsert 0
  · split
    · exact .throw _
    · split
      · exact hinsert pc
      · exact (peeks_ofExcept _).bind fun size => hinsert _

theorem refuses_mergeNext (p : Program) : Refuses (mergeNext ref p) := by
  cases ref with
  | user i =>
    refine .get_bind fun s => ?_
    split
    · exact .throw _
    · refine (refuses_reserve _ _).bind fun b => ?_
      exact (modify _).bind fun _ => (modify _).bind fun _ =>
        (modify _).bind fun _ => sure_rebuildLabels.bind fun _ =>
          (sure_invalidate _ _).bind fun _ => sure_edited
  | _ => exact .throw _

theorem refuses_delete (pc : Int) : Refuses (delete ref pc) := by
  refine (peeks_getProgram ref).bind fun p => (peeks_checkEditable p).bind fun _ => ?_
  dsimp only
  split
  · exact .throw _
  · split
    · exact .throw _
    · split
      · exact refuses_mergeNext ref p
      · refine (peeks_ofExcept _).bind fun size => refuses ?_
        exact (modify _).bind fun _ => sure_finishLineEdit _ _ _ _

theorem refuses_clearProgram : Refuses (clearProgram ref) := by
  refine (peeks_getProgram ref).bind fun p => (peeks_checkEditable p).bind fun _ => refuses ?_
  refine (modify _).bind fun _ => ?_
  cases ref with
  | user i => exact sure_rebuildLabels.bind fun _ => sure_edited
  | _ => exact sure_edited

theorem refuses_resolveTarget (pc : Int) : Refuses (resolveTarget ref pc) := by
  refine (peeks_getProgram ref).bind fun p => (peeks_ofExcept _).bind fun line => ?_
  dsimp only
  split
  · exact (pure _).refuses
  · refine .get_bind fun s => (peeks_ofExcept _).bind fun target => refuses ?_
    exact (crashes_writeTarget _ _ _).sure_edit.bind fun _ => (modify _).bind fun _ => .pure _

end

end Store

theorem Request.refuses_run (r : Request) : Refuses r.run := by
  cases r with
  | newProgram => exact Store.refuses_newProgram.bind fun _ => .pure _
  | newEquationSlot => exact Store.refuses_newEquationSlot.bind fun _ => .pure _
  | freeEquation ref => exact (Store.refuses_freeEquation ref).bind fun _ => .pure _
  | insert ref pc line => exact (Store.refuses_insert ref pc line).bind fun _ => .pure _
  | insertAfter ref pc line => exact (Store.refuses_insertAfter ref pc line).bind fun _ => .pure _
  | delete ref pc => exact (Store.refuses_delete ref pc).bind fun _ => .pure _
  | clearProgram ref => exact (Store.refuses_clearProgram ref).bind fun _ => .pure _
  | endBulkLoad => exact refuses (Store.sure_endBulkLoad.bind fun _ => .pure _)
  | invalidate ref force =>
    exact refuses ((Store.sure_invalidate ref force).bind fun _ => .pure _)
  | resolve ref pc => exact (Store.refuses_resolveTarget ref pc).bind fun _ => .pure _
  | beginBulkLoad | openGenerated | closeGenerated =>
    exact refuses ((modify _).bind fun _ => .pure _)

/-! ## Sessions -/

theorem CallStack.crashes_takeCursor (slots : List Slot) : Crashes (takeCursor slots) := by
  unfold takeCursor
  split
  · exact .ok _
  · exact .outOfBounds

theorem CallStack.crashes_pop (c : CallStack) : Crashes c.pop := by
  unfold pop
  split
  · unfold popBase
    split
    · exact (crashes_takeCursor _).bind fun _ => .ok _
    · exact .ok _
  · split
    · exact .outOfBounds
    · dsimp only
      split
      · exact (crashes_takeCursor _).map.bind fun _ => .ok _
      · exact .ok _
    · intro e h
      cases h
      rfl

namespace Session

theorem sure_popReturn : Sure popReturn :=
  .get_bind fun s => s.calls.crashes_pop.sure_machine.bind fun _ =>
    (set _).bind fun _ => .pure _

theorem sure_popReturns (n : Nat) : Sure (popReturns n) := by
  induction n with
  | zero => exact .pure _
  | succ n ih => exact sure_popReturn.bind fun _ => ih

theorem sure_clearReturns : Sure clearReturns :=
  (modify _).bind fun _ => (get_bind fun _ => sure_popReturns _).bind fun _ => .modify _

/-- What the store refuses, the session refuses: it drops no pending return. -/
theorem refuses_edit {α : Type} {op : Edit α} (hop : Refuses op) : Refuses (edit op) := by
  intro s e t h he
  unfold edit at h
  cases hrun : op s.store with
  | ok a store =>
    simp only [hrun] at h
    split at h
    · cases h
    · next hnotify =>
      obtain ⟨rfl, rfl⟩ := EStateM.Result.error.inj h
      split at hnotify
      · cases hnotify
      · rw [sure_clearReturns _ _ _ hnotify] at he
        cases he
  | error cause store =>
    simp only [hrun] at h
    split at h
    · next hnotify =>
      obtain ⟨rfl, rfl⟩ := EStateM.Result.error.inj h
      obtain rfl := hop _ _ _ hrun he
      rw [if_pos rfl] at hnotify
      exact (EStateM.Result.ok.inj hnotify).2.symm
    · next hnotify =>
      obtain ⟨rfl, rfl⟩ := EStateM.Result.error.inj h
      split at hnotify
      · cases hnotify
      · rw [sure_clearReturns _ _ _ hnotify] at he
        cases he

end Session

/-- A request that fails in the ordinary way changes nothing. The store is as it was before: the
    bytes and capacities of all programs, the lists of programs and slots, the notes of pending
    returns, the label table, the count of memory and the count of edits. In a session nothing else
    has changed either, so no pending return was dropped. -/
theorem Request.unchanged_of_refused (r : Request) :
    (∀ (s t : Store) (e : Error), r.run s = .error e t → e.isCrash = false → t = s) ∧
      ∀ (s t : Session) (e : Error), Session.edit r.run s = .error e t → e.isCrash = false →
        t = s :=
  ⟨fun s t e => r.refuses_run s e t, fun s t e => refuses_edit r.refuses_run s e t⟩

/-- A session in the middle of a call, with 12 bytes of memory of which its program, LBL 01 and END,
    has taken 8. -/
def Session.tight : Session where
  store := {
    options := { memoryLimit := 12, initialCapacity := 8 }
    programs := [{ buffer := ⟨[0x5C, 0x01, 0x81] ++ endBytes, [], 3⟩, refs := 1 }]
    labels := [⟨none, 0, 3⟩]
    used := 8 }
  calls := { slots := [.pending (.user 0) 0 false false], level := 1, max := 1024 }
  current := .user 0
  running := true

/-- There is no room for the five bytes of the second half when an END is put at the top. -/
theorem Request.unchanged_of_refused_tight :
    let split : Request := .insert (.user 0) (-1) (.plain .endLine)
    split.run tight.store = .error .insufficientMemory tight.store ∧
      edit split.run tight = .error .insufficientMemory tight := by
  intro split
  obtain ⟨store, hstore⟩ : ∃ store,
      split.run tight.store = .error .insufficientMemory store := ⟨_, rfl⟩
  obtain ⟨s, hs⟩ : ∃ s, edit split.run tight = .error .insufficientMemory s := ⟨_, rfl⟩
  obtain ⟨hkept, hleft⟩ := unchanged_of_refused split
  obtain rfl := hkept _ _ _ hstore rfl
  obtain rfl := hleft _ _ _ hs rfl
  exact ⟨hstore, hs⟩

end Keystroke
