import Keystroke.Proofs.Compile.Ownership
import Keystroke.Proofs.Machine.Lines
import Keystroke.Proofs.Machine.Returns
import Keystroke.Proofs.Store.Counts

set_option autoImplicit false

/-! # Pending returns and the slots they keep

The store notes for each equation slot how many returns into it are pending, and the call stack
holds the returns themselves. Whatever is asked of a session, the two agree
(`SessionRequest.counted_foldl`): the machine notes a return when it calls out of a program that
exists, takes the note back when it returns, and no edit touches the notes. So a slot that a return
leads into cannot be freed, and any other slot can. -/

namespace Keystroke

variable {ref : ProgramRef} {s : Session} {i : Int}

open Operation

/-! ## Returns on the call stack -/

namespace CallStack

variable {c c' : CallStack}

/-- The number of pending returns into a program. -/
def returnsInto (c : CallStack) (ref : ProgramRef) : Nat := c.frames.countP (·.ref = ref)

theorem returnsInto_push {pc : Int} (h : c.push ref pc = .ok c') (r : ProgramRef) :
    c'.returnsInto r = c.returnsInto r + if ref = r then 1 else 0 := by
  rw [returnsInto, frames_push h, List.countP_cons]
  simp [returnsInto]

theorem returnsInto_markFunc (h : c.markFunc = .ok c') (r : ProgramRef) :
    c'.returnsInto r = c.returnsInto r := by
  have hcount := congrArg (List.countP (·.1 = r)) (frames_markFunc h)
  rwa [List.countP_map, List.countP_map] at hcount

theorem returnsInto_pop (hwf : c.WellFormed) :
    ∃ popped c', c.pop = .ok (popped, c') ∧ c'.WellFormed ∧ ∀ r, c.returnsInto r =
      c'.returnsInto r + if popped.top = false ∧ popped.frame.ref = r then 1 else 0 := by
  obtain ⟨popped, c', hpop, hwf', -, hframes, -⟩ := exists_pop hwf
  refine ⟨popped, c', hpop, hwf', fun r => ?_⟩
  rw [returnsInto, hframes, List.countP_append, Nat.add_comm]
  cases popped.top <;> simp [returnsInto, List.countP_cons]

theorem returnsInto_pos {r : ProgramRef} : 0 < c.returnsInto r ↔ ∃ f ∈ c.frames, f.ref = r := by
  simp [returnsInto, List.countP_pos_iff]

end CallStack

/-! ## Notes in the store -/

namespace Store

variable {s : Store}

theorem refCount_retain {p : Program} (hp : s.program? ref = some p) (r : ProgramRef) :
    (s.retain ref).refCount r = s.refCount r + if ref = r then 1 else 0 := by
  simp only [retain, hp]
  by_cases href : ref = r
  · subst href
    rw [refCount_of_some (program?_setProgram_self _ hp), refCount_of_some hp, if_pos rfl]
  · rw [refCount, refCount, program?_setProgram_ne _ hp (Ne.symm href), if_neg href, Nat.add_zero]

theorem refCount_release (ref r : ProgramRef) :
    (s.release ref).refCount r = s.refCount r - if ref = r then 1 else 0 := by
  cases hp : s.program? ref with
  | none =>
    simp only [release, hp]
    split
    · next href =>
      subst href
      rw [refCount_of_none hp]
    · rfl
  | some p =>
    simp only [release, hp]
    by_cases href : ref = r
    · subst href
      rw [refCount_of_some (program?_setProgram_self _ hp), refCount_of_some hp, if_pos rfl]
    · rw [refCount, refCount, program?_setProgram_ne _ hp (Ne.symm href), if_neg href, Nat.sub_zero]

end Store

/-! ## Sessions -/

namespace Session

variable {s : Session} {users : Bool}

/-- Every slot, and every program of the user if they count, notes exactly the returns into it. -/
structure Counted (users : Bool) (s : Session) : Prop where
  calls : s.calls.WellFormed
  counts : ∀ r, Store.Noted users r → s.store.refCount r = s.calls.returnsInto r

namespace Counted

theorem of_same {t : Session} (h : s.Counted users) (hstore : s.store.SameCounts users t.store)
    (hcalls : t.calls = s.calls) : t.Counted users :=
  ⟨hcalls ▸ h.calls, fun r hr => by rw [hcalls, hstore r hr, h.counts r hr]⟩

theorem pushReturn (h : s.Counted users) {ref : ProgramRef} {p : Program}
    (hp : s.store.program? ref = some p) (pc : Int) :
    (state (pushReturn ref pc s)).Counted users := by
  unfold Session.pushReturn
  rw [get_bind]
  cases hpush : s.calls.push ref pc with
  | error e => exact h
  | ok calls =>
    have hcount := CallStack.returnsInto_push hpush
    cases ref with
    | user k | equation k =>
      refine ⟨h.calls.push hpush, fun r hr => ?_⟩
      change (s.store.retain _).refCount _ = _
      rw [Store.refCount_retain hp, h.counts r hr, ← hcount]
      rfl
    -- The other references name no program that a call could leave.
    | none | solver | integrator => cases hp

theorem popReturn (h : s.Counted users) :
    ∃ popped t, popReturn s = .ok popped t ∧ t.Counted users := by
  obtain ⟨popped, calls, hpop, hwf, hcount⟩ := CallStack.returnsInto_pop h.calls
  refine ⟨popped, _, by rw [Session.popReturn, get_bind, hpop]; rfl, hwf, fun r hr => ?_⟩
  have hleft := hcount r
  rw [← h.counts r hr] at hleft
  cases htop : popped.top with
  | true =>
    -- Level zero was left: there was no return, and nothing is taken back.
    cases href : popped.frame.ref <;> simpa [htop, href] using hleft
  | false =>
    cases href : popped.frame.ref with
    | user k | equation k | none =>
      simp only [htop, href, true_and, Bool.false_eq_true, if_false] at hleft ⊢
      rw [Store.refCount_release, hleft, Nat.add_sub_cancel]
    | solver | integrator =>
      rw [if_neg (by rintro ⟨-, rfl⟩; rw [href] at hr; exact hr)] at hleft
      simpa [href] using hleft

end Counted

/-! ## Operations that leave store and calls alone -/

/-- The operation changes neither the store nor the call stack. -/
def Aside {α : Type} (x : Machine α) : Prop :=
  ∀ s, (state (x s)).store = s.store ∧ (state (x s)).calls = s.calls

namespace Aside

variable {α β : Type}

theorem bind {x : Machine α} {f : α → Machine β} (hx : Aside x) (hf : ∀ a, Aside (f a)) :
    Aside (x >>= f) := by
  intro s
  refine Leads.bind (P := fun t => t.store = s.store ∧ t.calls = s.calls)
    (Q := fun t => t.store = s.store ∧ t.calls = s.calls) ?_ ?_ s ⟨rfl, rfl⟩
  · rintro t ⟨hstore, hcalls⟩
    exact ⟨(hx t).1.trans hstore, (hx t).2.trans hcalls⟩
  · rintro a t ⟨hstore, hcalls⟩
    exact ⟨(hf a t).1.trans hstore, (hf a t).2.trans hcalls⟩

theorem pure (a : α) : Aside (pure a : Machine α) := fun _ => ⟨rfl, rfl⟩

theorem get_bind {f : Session → Machine β} (hf : ∀ s, Aside (f s)) : Aside (get >>= f) :=
  fun s => hf s s

theorem modify_bind {g : Session → Session} {f : Unit → Machine β}
    (hg : ∀ s, (g s).store = s.store ∧ (g s).calls = s.calls) (hf : ∀ u, Aside (f u)) :
    Aside ((modify g : Machine Unit) >>= f) := by
  intro s
  exact ⟨(hf () (g s)).1.trans (hg s).1, (hf () (g s)).2.trans (hg s).2⟩

theorem leads {x : Machine α} (hx : Aside x) : Leads (Counted users) x (Counted users) := by
  intro s hs
  exact hs.of_same ((hx s).1 ▸ .refl _) (hx s).2

end Aside

theorem aside_ofExcept {α : Type} (r : Except Error α) : Aside (Machine.ofExcept r) := by
  intro s
  cases r <;> exact ⟨rfl, rfl⟩

theorem Quiet.aside {α : Type} {R : α → Prop} {x : Machine α} (hx : Quiet R x) : Aside x := by
  intro s
  have hs := hx s
  generalize x s = r at hs
  cases hs with
  | ok h =>
    obtain ⟨-, _, _, _, _, rfl⟩ := h
    exact ⟨rfl, rfl⟩
  | error h =>
    obtain ⟨-, rfl⟩ := h
    exact ⟨rfl, rfl⟩

/-! ## Lines -/

/-- The notes are right, and the machine is in a program that exists. -/
def Placed (users : Bool) (s : Session) : Prop :=
  s.Counted users ∧ ∃ p, s.store.program? s.current = some p

theorem leads_jump (line : Instr) (next : Int) (call : Bool) :
    Leads (Placed users) (jump line next call) (Counted users) := by
  rintro s ⟨hs, p, hp⟩
  -- The return is noted first, while the machine is still in the program that it leaves.
  have hpush {α : Type} {rest : Machine α} (hrest : Aside rest) :
      (state ((do
        if call then pushReturn (← get).current next
        rest : Machine α) s)).Counted users := by
    cases call with
    | false => exact hrest.leads s hs
    | true =>
      refine Leads.bind (P := (· = s)) ?_ (fun _ => hrest.leads) s rfl
      rintro _ rfl
      exact hs.pushReturn hp next
  unfold jump
  split
  · rw [get_bind]
    cases s.store.findGlobal? line.operand.text with
    | none => exact hs
    | some place =>
      exact hpush (.modify_bind (fun _ => ⟨rfl, rfl⟩) fun _ => .pure _)
  · split
    · exact hs
    · exact hpush (.pure _)

theorem aside_takeOutputs (popped : Popped) (record? : Option FuncRecord) :
    Aside (takeOutputs popped record?) := by
  unfold takeOutputs
  split
  · split
    · exact .pure _
    · exact .get_bind fun s => (aside_ofExcept _).bind fun _ _ => ⟨rfl, rfl⟩
  · exact .pure _

theorem aside_goBack (popped : Popped) (next : Int) : Aside (goBack popped next) := by
  unfold goBack
  split
  · exact .modify_bind (fun _ => ⟨rfl, rfl⟩) fun _ => .pure _
  · refine .modify_bind (fun _ => ⟨rfl, rfl⟩) fun _ => ?_
    split
    · exact .modify_bind (fun _ => ⟨rfl, rfl⟩) fun _ => .pure _
    · exact .pure _

theorem leads_leave (next : Int) : Leads (Counted users) (leave next) (Counted users) := by
  intro s hs
  have hs' : Counted users { s with
      locals := s.locals.remove s.calls.level, funcs := s.funcs.remove s.calls.level } :=
    ⟨hs.calls, hs.counts⟩
  obtain ⟨popped, t, hrun, ht⟩ := hs'.popReturn
  rw [leave_apply, bind_ok hrun]
  exact ((aside_takeOutputs popped _).bind fun _ => aside_goBack popped next).leads t ht

theorem leads_declare (n : Int) : Leads (Counted users) (declare n) (Counted users) := by
  intro s hs
  unfold declare
  rw [get_bind]
  split
  · exact hs
  · cases hmark : s.calls.markFunc with
    | error e => exact hs
    | ok calls =>
      refine ⟨hs.calls.markFunc hmark, fun r hr => ?_⟩
      exact (hs.counts r hr).trans (CallStack.returnsInto_markFunc hmark _).symm

theorem leads_perform (line : Instr) (next : Int) :
    Leads (Placed users) (perform line next) (Counted users) := by
  rcases perform_cases line next with ⟨hquiet, -⟩ | ⟨-, hrun⟩ | ⟨-, hrun⟩ | ⟨call, -, hrun⟩
  · exact fun s hs => hquiet.aside.leads s hs.1
  · rw [hrun]
    exact Leads.bind (fun s hs => leads_declare _ s hs.1) fun _ => .pure _
  · rw [hrun]
    exact fun s hs => leads_leave next s hs.1
  · rw [hrun]
    exact leads_jump line next call

/-! ## Steps and runs -/

theorem leads_step : Leads (Counted users) step (Counted users) := by
  intro s hs
  unfold step
  split
  · exact hs
  · have hcounts : s.store.SameCounts users (state (Store.resolveTarget s.current s.pc s.store)) :=
      Store.sameCounts_resolveTarget s.current s.pc
    cases hline : Store.resolveTarget s.current s.pc s.store with
    | error e store =>
      rw [hline] at hcounts
      exact hs.of_same hcounts rfl
    | ok read store =>
      rw [hline] at hcounts
      obtain ⟨line, size⟩ := read
      -- A line was read from the current program, so there is such a program.
      have hplaced : Placed users { s with store := store } :=
        ⟨hs.of_same hcounts rfl, Store.resolveTarget_program? hline⟩
      have hnext := leads_perform line (s.pc + size) _ hplaced
      dsimp only
      cases hrun : perform line (s.pc + size) { s with store := store } with
      | error e t =>
        rw [hrun] at hnext
        exact hnext.of_same (.refl _) rfl
      | ok next t =>
        rw [hrun] at hnext
        dsimp only
        split
        · exact hnext
        · split <;> exact hnext.of_same (.refl _) rfl

/-- A run that ends, ends with right notes: by induction on its steps. -/
theorem counted_runFrom {n : Nat} {r : EStateM.Result Error Session Unit} (hs : s.Counted users)
    (h : runFrom n s = some r) : (state r).Counted users := by
  refine runFrom.partial_correctness (fun _ s r => s.Counted users → (state r).Counted users)
    ?_ n s r h hs
  intro loop ih n s r hr hs
  split at hr
  · obtain rfl := Option.some.inj hr
    exact hs
  · split at hr
    · obtain rfl := Option.some.inj hr
      exact hs.of_same (.refl _) rfl
    · have hstep := leads_step s hs
      split at hr
      · next hrun =>
        obtain rfl := Option.some.inj hr
        rw [hrun] at hstep
        exact hstep
      · next hrun =>
        rw [hrun] at hstep
        exact ih _ _ _ hr hstep

theorem leads_run (cancelled : Bool) : Leads (Counted users) (run cancelled) (Counted users) := by
  intro s hs
  unfold run
  split
  · exact hs.of_same (.refl _) rfl
  · cases hrun : runFrom 0 s with
    | none => exact hs.of_same (.refl _) rfl
    | some r => exact counted_runFrom hs hrun

theorem leads_call (ref : ProgramRef) : Leads (Counted users) (call ref) (Counted users) := by
  intro s hs
  unfold call
  rw [get_bind]
  cases s.store.program? ref with
  | none => exact hs
  | some p => exact hs.of_same (.refl _) rfl

theorem leads_popReturns (n : Nat) : Leads (Counted users) (popReturns n) (Counted users) := by
  induction n with
  | zero => exact .pure ()
  | succ n ih =>
    intro s hs
    obtain ⟨popped, t, hrun, ht⟩ := hs.popReturn
    rw [popReturns, bind_ok hrun]
    exact ih t ht

theorem leads_clearReturns : Leads (Counted users) clearReturns (Counted users) := by
  have hclear : Leads (Counted users) clearCalls (Counted users) := fun s hs =>
    leads_popReturns _ s hs
  refine Leads.bind (fun s hs => hs.of_same (.refl _) rfl) fun _ => ?_
  exact hclear.bind fun _ s hs => hs.of_same (.refl _) rfl

theorem leads_reset : Leads (Counted users) reset (Counted users) :=
  leads_clearReturns.bind fun _ _ hs => hs.of_same (.refl _) rfl

theorem leads_evaluate (ref : ProgramRef) (inputs : List Float) (cancelled : Bool) :
    Leads (Counted users) (evaluate ref inputs cancelled) (Counted users) := by
  refine leads_reset.bind fun _ => Leads.bind (fun s hs => hs.of_same (.refl _) rfl) fun _ => ?_
  exact (leads_call ref).bind fun _ => (leads_run cancelled).bind fun _ =>
    looks_top.quiet.aside.leads

/-- An operation on the store that keeps its counts keeps the notes right, also when pending returns
    are dropped after it. -/
theorem Counted.edit {α : Type} {op : Edit α} (hs : s.Counted users)
    (hsame : s.store.SameCounts users (state (op s.store))) :
    (state (edit op s)).Counted users := by
  unfold Session.edit
  cases hrun : op s.store with
  | ok a store | error e store =>
    rw [hrun] at hsame
    have hs' : Counted users { s with store := store } := hs.of_same hsame rfl
    have hclear := leads_clearReturns _ hs'
    -- Returns are dropped after an edit of the user's programs, and else the session is as it was.
    dsimp only
    split
    · next hnotify =>
      split at hnotify
      · obtain ⟨-, rfl⟩ := EStateM.Result.ok.inj hnotify
        exact hs'
      · rw [hnotify] at hclear
        exact hclear
    · next hnotify =>
      split at hnotify
      · cases hnotify
      · rw [hnotify] at hclear
        exact hclear

end Session

/-! ## Equations -/

theorem Store.Forgoes.sameCounts {s s' : Store} {cause : Error} (h : s.Forgoes cause s') :
    s.SameCounts false s' := by
  rcases h with hs | ⟨-, k, hfree, hs⟩
  · exact .of_slot?_eq hs
  · exact .of_slotsBut hs (refCount_of_none hfree)

namespace Equation

open Store

theorem Takes.sameCounts {e e' : Equation} {s s' : Store} (h : e.Takes s e' s') :
    s.SameCounts false s' := by
  cases h with
  | slot _ _ hfree hs => exact .of_slotsBut hs (refCount_of_none hfree)
  | none hs => exact .of_slot?_eq hs

theorem sameCounts_freeSolutions (m : Assoc Bytes ProgramRef) (s : Store) :
    s.SameCounts false (freeSolutions m s).2.2 := by
  induction m generalizing s with
  | nil => exact .refl s
  | cons solution rest ih =>
    have hfirst := sameCounts_freeEquation (s := s) solution.2
    obtain ⟨name, ref⟩ := solution
    unfold freeSolutions
    cases hrun : freeEquation ref s with
    | ok _ t =>
      rw [hrun] at hfirst
      exact hfirst.trans (ih t)
    | error e t =>
      rw [hrun] at hfirst
      exact hfirst.trans (ih t)

theorem sameCounts_free (e : Equation) (s : Store) : s.SameCounts false (e.free s).2.2 := by
  unfold free
  split
  · exact .refl s
  · have hsolutions := sameCounts_freeSolutions e.solutions s
    have hown := sameCounts_freeEquation (s := (freeSolutions e.solutions s).2.2) e.program
    dsimp only
    split
    · next hrun =>
      rw [hrun] at hown
      exact hsolutions.trans hown
    · next hrun =>
      rw [hrun] at hown
      exact hsolutions.trans hown

end Equation

/-! ## Requests to a session -/

/-- What can be asked of a session. -/
inductive SessionRequest where
  /-- A request to the store; an edit of a user program drops pending returns. -/
  | store (r : Request)
  | compile (e : Equation) (names : NameTable)
  | solveFor (e : Equation) (name : Bytes)
  | free (e : Equation)
  | call (ref : ProgramRef)
  | step
  | run (cancelled : Bool)
  | evaluate (ref : ProgramRef) (inputs : List Float) (cancelled : Bool)
  | reset
  /-- Gives the variables, the numbers on the stack and the settings of a run new values. -/
  | prepare (vars : Variables) (stack : List Float) (solvingFor : Bytes) (stepLimit : Int)

namespace SessionRequest

open Session

/-- The session after a request, whether it succeeded or failed. -/
def perform (s : Session) : SessionRequest → Session
  | store r => state (edit r.run s)
  | compile e names => state (edit (e.compile names) s)
  | solveFor e name => state (edit (e.solveFor name) s)
  | free e => { s with store := (e.free s.store).2.2 }
  | call ref => state (Session.call ref s)
  | step => state (Session.step s)
  | run cancelled => state (Session.run cancelled s)
  | evaluate ref inputs cancelled => state (Session.evaluate ref inputs cancelled s)
  | reset => state (Session.reset s)
  | prepare vars stack solvingFor stepLimit => { s with
      vars := vars, stack := stack, solvingFor := solvingFor, stepLimit := stepLimit }

theorem counted_perform (hs : s.Counted false) (r : SessionRequest) :
    (r.perform s).Counted false := by
  cases r with
  | store r => exact hs.edit (r.sameCounts_run s.store)
  | compile e names =>
    exact hs.edit ((e.compile_takes names s.store).state (fun _ _ h => h.sameCounts)
      fun _ _ h => h.sameCounts)
  | solveFor e name =>
    exact hs.edit ((e.solveFor_takes name s.store).state (fun _ _ h => h.sameCounts)
      fun _ _ h => h.sameCounts)
  | free e => exact hs.of_same (e.sameCounts_free s.store) rfl
  | call ref => exact leads_call ref s hs
  | step => exact leads_step s hs
  | run cancelled => exact leads_run cancelled s hs
  | evaluate ref inputs cancelled => exact leads_evaluate ref inputs cancelled s hs
  | reset => exact leads_reset s hs
  | prepare => exact hs.of_same (.refl _) rfl

theorem counted_new {options : Options} {users : Bool} (h : Session.new options = .ok s) :
    s.Counted users := by
  cases hstore : Store.new options with
  | error e =>
    rw [Session.new, hstore] at h
    cases h
  | ok store =>
    rw [Session.new, hstore] at h
    obtain rfl := Except.ok.inj h
    obtain ⟨-, hslots, -, -, hprograms, -⟩ := Store.new_cases hstore
    have hzero (k : Nat) : Store.refsAt store.programs k = 0 := by
      rcases hprograms with ⟨p, hp, hempty⟩ | ⟨hp, -⟩
      · cases k <;> simp [Store.refsAt, hp, hempty.refs]
      · simp [Store.refsAt, hp]
    -- The store has the counts of one without programs.
    have hsame : Store.SameCounts users { store with programs := [] } store :=
      .of_nat (fun _ => rfl) fun _ k => hzero k
    refine ⟨.base rfl, fun r hr => (hsame r hr).trans ?_⟩
    exact Store.refCount_of_none (by cases r <;> simp [Store.program?, Store.at?, hslots])

theorem counted_foldl (hs : s.Counted false) (rs : List SessionRequest) :
    (rs.foldl perform s).Counted false := by
  induction rs generalizing s with
  | nil => exact hs
  | cons r rs ih => exact ih (counted_perform hs r)

theorem freeEquation_of_pending (hs : s.Counted false)
    (h : ∃ f ∈ s.calls.frames, f.ref = .equation i) :
    (s.store.program? (.equation i)).isSome ∧
      edit (Store.freeEquation (.equation i)) s = .error (.programInUse (.equation i)) s := by
  have hpos : 0 < s.store.refCount (.equation i) := by
    rw [hs.counts (.equation i) trivial]
    exact CallStack.returnsInto_pos.2 h
  cases hp : s.store.program? (.equation i) with
  | none =>
    rw [Store.refCount_of_none hp] at hpos
    exact absurd hpos (Nat.lt_irrefl 0)
  | some p =>
    rw [Store.refCount_of_some hp] at hpos
    exact ⟨rfl, edit_of_error (Store.freeEquation_busy hp (Nat.pos_iff_ne_zero.1 hpos)) rfl⟩

theorem freeEquation_of_idle_slot (hs : s.Counted false)
    (htaken : (s.store.program? (.equation i)).isSome)
    (h : ¬ ∃ f ∈ s.calls.frames, f.ref = .equation i) :
    ∃ t, edit (Store.freeEquation (.equation i)) s = .ok () t ∧
      t.store.program? (.equation i) = none := by
  obtain ⟨p, hp⟩ := Option.isSome_iff_exists.1 htaken
  have hzero : p.refs = 0 := by
    rw [← Store.refCount_of_some hp, hs.counts (.equation i) trivial]
    exact Nat.eq_zero_of_not_pos (fun hpos => h (CallStack.returnsInto_pos.1 hpos))
  -- The slot that was freed stays in the list, empty.
  refine ⟨_, edit_of_ok (Store.freeEquation_eq_ok hp hzero) rfl, ?_⟩
  simp only [Store.program?, Store.at?]
  split
  · rfl
  · rw [List.getElem?_set]
    split
    · split <;> rfl
    · contradiction

/-- Pending returns keep equation slots alive. In every session that requests lead to, whether they
    succeed or fail, a slot notes as many returns as there are frames that name it. So a slot that a
    frame names is taken and cannot be freed, and every other taken slot can. -/
theorem pending_returns_counted {options : Options} {s : Session}
    (hnew : Session.new options = .ok s) (rs : List SessionRequest) (i : Int) :
    let t := rs.foldl perform s
    t.store.refCount (.equation i) = t.calls.frames.countP (·.ref = .equation i) ∧
      ((∃ f ∈ t.calls.frames, f.ref = .equation i) →
        (t.store.program? (.equation i)).isSome ∧
          edit (Store.freeEquation (.equation i)) t = .error (.programInUse (.equation i)) t) ∧
      ((t.store.program? (.equation i)).isSome → (¬ ∃ f ∈ t.calls.frames, f.ref = .equation i) →
        ∃ t', edit (Store.freeEquation (.equation i)) t = .ok () t' ∧
          t'.store.program? (.equation i) = none) := by
  have ht := counted_foldl (counted_new hnew) rs
  exact ⟨ht.counts (.equation i) trivial, freeEquation_of_pending ht, freeEquation_of_idle_slot ht⟩

/-- A compiled program that calls a line of its own, up to the call. -/
def callingItself : List SessionRequest :=
  [.store .newEquationSlot, .store .openGenerated,
    .store (.insert (.equation 0) 0 (.withNum .lbl 1)),
    .store (.insert (.equation 0) 0 (.withNum .xeq 1)),
    .store .closeGenerated, .call (.equation 0), .step]

theorem pending_returns_counted_callingItself :
    ∃ s t, Session.new {} = .ok s ∧ t = callingItself.foldl perform s ∧
      t.store.refCount (.equation 0) = 1 ∧
      edit (Store.freeEquation (.equation 0)) t = .error (.programInUse (.equation 0)) t := by
  obtain ⟨s, hnew⟩ : ∃ s, Session.new {} = .ok s := ⟨_, rfl⟩
  obtain ⟨hcount, hpending, -⟩ := pending_returns_counted hnew callingItself 0
  have hframes : (callingItself.foldl perform s).calls.frames.map (·.ref) = [.equation 0] := by
    obtain rfl := Except.ok.inj hnew
    rfl
  have hnamed : ∃ f ∈ (callingItself.foldl perform s).calls.frames, f.ref = .equation 0 :=
    List.mem_map.1 (hframes ▸ List.mem_singleton_self _)
  have hone := congrArg (List.countP (· = .equation 0)) hframes
  rw [List.countP_map] at hone
  exact ⟨s, _, hnew, rfl, hcount.trans hone, (hpending hnamed).2⟩

end SessionRequest

end Keystroke
