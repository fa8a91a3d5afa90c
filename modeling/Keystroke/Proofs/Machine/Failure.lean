import Keystroke.Proofs.Machine.Lines
import Keystroke.Proofs.Store.Places
import Keystroke.Proofs.Store.Refusal

set_option autoImplicit false

/-! # Lines that fail

A line that fails in the ordinary way changes nothing: it has put back what it took off the stack,
or it fails before it touches anything. Only the machine stops, and the target of a jump that was
looked up on the way stays known (`Session.unchanged_of_failed_step`). -/

namespace Keystroke

open Operation

/-! ## Lines -/

theorem CallStack.crashes_markFunc (c : CallStack) : Crashes c.markFunc := by
  unfold markFunc
  split
  · exact .ok _
  · split
    · exact .ok _
    · exact .outOfBounds

namespace Session

variable {α : Type} {s t : Session} {e : Error}

theorem peeks_ofExcept (r : Except Error α) : Peeks (Machine.ofExcept r) := by
  intro s
  cases r <;> rfl

theorem Quiet.refuses {R : α → Prop} {x : Machine α} (hx : Quiet R x) : Refuses x := by
  intro s e t h _
  have hs := hx s
  rw [h] at hs
  cases hs with
  | error hs => exact hs.2

theorem refuses_pushReturn (ref : ProgramRef) (pc : Int) : Refuses (pushReturn ref pc) :=
  .get_bind fun _ => (peeks_ofExcept _).bind fun _ => (Sure.set _).refuses

theorem refuses_jump (line : Instr) (next : Int) (call : Bool) : Refuses (jump line next call) := by
  have hgo {rest : Machine Next} (hrest : Sure rest) : Refuses (do
      if call then pushReturn (← get).current next
      rest : Machine Next) := by
    cases call with
    | false => exact hrest.refuses
    | true => exact .get_bind fun _ => (refuses_pushReturn _ _).bind fun _ => hrest
  unfold jump
  split
  · refine .get_bind fun s => ?_
    split
    · exact .throw _
    · exact hgo ((Sure.modify _).bind fun _ => .pure _)
  · split
    · exact .throw _
    · exact hgo (.pure _)

theorem crashes_keepOutputs (stack : List Float) (record : FuncRecord) :
    Crashes (keepOutputs stack record) := by
  unfold keepOutputs
  dsimp only
  split
  · exact .outOfBounds
  · exact .ok _

theorem sure_takeOutputs (popped : Popped) (record? : Option FuncRecord) :
    Sure (takeOutputs popped record?) := by
  unfold takeOutputs
  split
  · split
    · exact .pure _
    · exact .get_bind fun s => (crashes_keepOutputs _ _).sure_machine.bind fun _ => .modify _
  · exact .pure _

theorem sure_goBack (popped : Popped) (next : Int) : Sure (goBack popped next) := by
  unfold goBack
  split
  · exact (Sure.modify _).bind fun _ => .pure _
  · refine (Sure.modify _).bind fun _ => ?_
    split
    · exact (Sure.modify _).bind fun _ => .pure _
    · exact .pure _

/-- A level is left for good: what may still go wrong is a crash. -/
theorem sure_leave (next : Int) : Sure (leave next) := by
  intro s
  rw [leave_apply]
  exact (sure_popReturn.bind fun popped =>
    (sure_takeOutputs popped _).bind fun _ => sure_goBack popped next) _

theorem refuses_declare (n : Int) : Refuses (declare n) := by
  refine .get_bind fun s => ?_
  dsimp only
  split
  · exact .throw _
  · exact Sure.refuses (s.calls.crashes_markFunc.sure_machine.bind fun _ => .set _)

theorem refuses_perform (line : Instr) (next : Int) : Refuses (perform line next) := by
  rcases perform_cases line next with ⟨hquiet, -⟩ | ⟨-, hrun⟩ | ⟨-, hrun⟩ | ⟨call, -, hrun⟩
  · exact hquiet.refuses
  · rw [hrun]
    exact (refuses_declare _).bind fun _ => .pure _
  · rw [hrun]
    exact (sure_leave next).refuses
  · rw [hrun]
    exact refuses_jump line next call

end Session

/-! ## Targets that were looked up -/

namespace Store

/-- The stores differ at most in the target of the jump at an offset, which was unknown. -/
inductive Filled (s : Store) (ref : ProgramRef) (pc : Int) : Store → Prop
  | same : Filled s ref pc s
  | target {p : Program} {front back : List Line} {l : Line} {t : Int32}
      (hp : s.program? ref = some p) (hl : p.Holds (front ++ l :: back))
      (hpc : pc = (textOf front).length) (hc : l.header.cached = true)
      (hu : l.target = targetUnknown) :
      Filled s ref pc (s.setProgram ref
        (p.withText (textOf (front ++ l.withTarget t :: back ++ [Line.endLine])) false))

variable {s t : Store} {ref : ProgramRef} {pc : Int}

theorem Fetched.filled {r : EStateM.Result Error Store (Instr × Nat)} (h : s.Fetched ref pc r) :
    s.Filled ref pc (state r) := by
  cases h with
  | refused => exact .same
  | line => exact .same
  | found hp hl hpc hc hu => exact .target hp hl hpc hc hu

theorem Filled.refCount (h : s.Filled ref pc t) (r : ProgramRef) : t.refCount r = s.refCount r := by
  cases h with
  | same => rfl
  | @target p front back l t hp hl =>
    by_cases hr : r = ref
    · subst hr
      rw [Store.refCount, Store.refCount, program?_setProgram_self _ hp, hp]
      rfl
    · rw [Store.refCount, Store.refCount, program?_setProgram_ne _ hp hr]

/-- The lines of all programs are the same, but for the targets of jumps. -/
theorem Filled.lines (h : s.Filled ref pc t) (r : ProgramRef) :
    (t.lines r).map (List.map (·.withTarget targetUnknown))
      = (s.lines r).map (List.map (·.withTarget targetUnknown)) := by
  cases h with
  | same => rfl
  | @target p front back l t hp hl hpc hc =>
    by_cases hr : r = ref
    · subst hr
      rw [lines_of_holds hp hl,
        lines_of_holds (program?_setProgram_self _ hp) (hl.withTarget t false)]
      simp only [Except.map, List.map_append, List.map_cons, Line.instr_withTarget t hc]
      rfl
    · simp only [Store.lines, Store.text, program?_setProgram_ne _ hp hr]

end Store

/-! ## Steps -/

namespace Session

variable {s t : Session} {e : Error}

/-- The current program, if it exists, is whole lines and an END without jumps to negative numbers,
    and the machine stands at one of its places. -/
def AtPlace (s : Session) : Prop :=
  ∀ p, s.store.program? s.current = some p →
    (∃ ls, p.Holds ls ∧ ∀ l ∈ ls, l.header.isNegativeJump = false) ∧
      ∃ n ∈ places p.buffer.text, s.pc = n

theorem AtPlace.fetched (h : s.AtPlace) :
    s.store.Fetched s.current s.pc (Store.resolveTarget s.current s.pc s.store) := by
  cases hp : s.store.program? s.current with
  | none => exact Store.fetched_of_none hp
  | some p =>
    obtain ⟨⟨ls, hl, hneg⟩, hplace⟩ := h p hp
    exact Store.fetched_of_place hp hl hneg hplace

theorem isCrash_of_lineError {c : Command} (h : (s.lineError c e).isCrash = false) :
    e.isCrash = false := by
  unfold lineError at h
  split at h
  · exact h
  · next he => simpa using he

/-- A step that fails in the ordinary way changes nothing: stack, last X, variables, local
    variables, declared inputs and outputs, pending returns, the current program and the place in it
    are as they were, and so are the programs with their notes of pending returns. Only the machine
    has stopped, and the target of the jump at the place may have become known. -/
theorem unchanged_of_failed_step (h : s.AtPlace) (hstep : step s = .error e t)
    (he : e.isCrash = false) :
    ∃ store, t = { s with store := store, running := false } ∧
      s.store.Filled s.current s.pc store ∧
      (∀ ref, store.refCount ref = s.store.refCount ref) ∧
      ∀ ref, (store.lines ref).map (List.map (·.withTarget targetUnknown))
        = (s.store.lines ref).map (List.map (·.withTarget targetUnknown)) := by
  suffices hfilled : ∃ store, t = { s with store := store, running := false } ∧
      s.store.Filled s.current s.pc store by
    obtain ⟨store, ht, hstore⟩ := hfilled
    exact ⟨store, ht, hstore, hstore.refCount, hstore.lines⟩
  have hfetched := h.fetched.filled
  unfold step at hstep
  split at hstep
  · cases hstep
  · split at hstep
    · next hread =>
      rw [hread] at hfetched
      obtain ⟨-, rfl⟩ := EStateM.Result.error.inj hstep
      exact ⟨_, rfl, hfetched⟩
    · next line size store hread =>
      rw [hread] at hfetched
      split at hstep
      · next hrun =>
        obtain ⟨rfl, rfl⟩ := EStateM.Result.error.inj hstep
        obtain rfl := refuses_perform _ _ _ _ _ hrun (isCrash_of_lineError he)
        exact ⟨store, rfl, hfetched⟩
      · split at hstep
        · cases hstep
        · split at hstep <;> cases hstep

/-- A session whose program calls the label behind the call, XEQ 01 and LBL 01, without room for
    another return. -/
def crowded : Session where
  store := {
    options := {}
    programs := [{
      buffer := ⟨[0x61, 1] ++ targetBytes targetUnknown ++ [0x81, 0x5C, 1, 0x81] ++ endBytes, [], 0⟩
      refs := 1 }]
    labels := [⟨none, 0, 10⟩]
    used := 12 }
  calls := { slots := [.pending (.user 0) 7 false false], level := 1, max := 1 }
  stack := [1, 2]
  current := .user 0
  running := true

/-- The label is found before the call is refused, so its offset stays behind as the target. -/
theorem unchanged_of_failed_step_crowded :
    ∃ e t, step crowded = .error e t ∧ e.isCrash = false ∧
      t.store.lines (.user 0) = .ok [(Instr.withNum .xeq 1).withTarget 7, .withNum .lbl 1,
        .plain .endLine] ∧
      ∃ store, t = { crowded with store := store, running := false } ∧
        crowded.store.Filled (.user 0) 0 store := by
  have hplace : crowded.AtPlace := by
    intro p hp
    obtain rfl := Option.some.inj hp
    refine ⟨⟨[⟨[0x61, 1, 0xFF, 0xFF, 0xFF, 0xFF, 0x81], by decide⟩, ⟨[0x5C, 1, 0x81], by decide⟩],
      ⟨rfl, by decide⟩, by decide⟩, 0, by decide, rfl⟩
  obtain ⟨e, t, hstep, he, hlines⟩ : ∃ e t, step crowded = .error e t ∧ e.isCrash = false ∧
      t.store.lines (.user 0) = .ok [(Instr.withNum .xeq 1).withTarget 7, .withNum .lbl 1,
        .plain .endLine] := ⟨_, _, rfl, rfl, rfl⟩
  obtain ⟨store, ht, hfilled, -⟩ := unchanged_of_failed_step hplace hstep he
  exact ⟨e, t, hstep, he, hlines, store, ht, hfilled⟩

end Session

end Keystroke
