import Keystroke.Proofs.Machine.Lines
import Keystroke.Proofs.Machine.Perform

set_option autoImplicit false

/-! # Two sessions side by side

Most lines look at the stack and at variables only. In two sessions that share what a line looks at
(`Sharing`), the line does the same, whatever programs and levels the sessions are in
(`Session.parallel_perform`); operations with this property are put together as the operations are
(`Machine.Parallel.bind`). Where every step of two sessions keeps them together, their whole runs
show the same (`Session.Bisimulation.shows_run`). -/

namespace Keystroke

open Operation

variable {i : Instr} {x x' : Float} {s s' : Session} {r : EStateM.Result Error Session Unit}

/-! ## What is shared -/

/-- Whether the action works on the stack alone: it needs neither local variables nor levels and
    goes on with the next line. -/
def Action.calculates : Action → Bool
  | .store _ | .fetch _ | .storeLocal | .func | .leave | .jump _ | .testZero _ | .testPair _
  | .skipUnless => false
  | _ => true

/-- Whether the action calculates, but looks neither at a matrix nor at the last X. -/
def Action.computes (a : Action) : Bool :=
  a.calculates && match a with
    | .item | .lastX => false
    | _ => true

/-- What two sessions have in common: the variables and the errors that belong together, the names
    that have the same value in both, as numbers and as matrices, and whether the last X is the
    same. A look at such a name fails with an error that belongs to itself, as every error does that
    is not about a missing variable. -/
structure Sharing where
  Vars : Variables → Variables → Prop
  Errors : Error → Error → Prop
  Real : Bytes → Prop
  Matrix : Bytes → Prop
  LastX : Prop
  fetch {v w : Variables} {name : Bytes} (hvars : Vars v w) (h : Real name) :
    v.fetch name = w.fetch name ∧ ∀ e, v.fetch name = .error e → Errors e e
  item {v w : Variables} {name : Bytes} (hvars : Vars v w) (h : Matrix name) (index : Int) :
    v.item name index = w.item name index ∧ ∀ e, v.item name index = .error e → Errors e e
  store {v w : Variables} (hvars : Vars v w) (name : Bytes) (x : Float) :
    Vars (v.store name x) (w.store name x)
  ordinary {e : Error} (h : .nonexistent ∉ e.causes) : Errors e e

namespace Sharing

/-- Everything is shared. -/
def all : Sharing where
  Vars := Eq
  Errors := Eq
  Real _ := True
  Matrix _ := True
  LastX := True
  fetch h _ := ⟨by rw [h], fun _ _ => rfl⟩
  item h _ _ := ⟨by rw [h], fun _ _ => rfl⟩
  store h _ _ := by rw [h]
  ordinary _ := rfl

variable (S : Sharing)

/-- The computations give the same, and an error that belongs to itself. -/
def Same {α : Type} (r r' : Except Error α) : Prop := r = r' ∧ ∀ e, r = .error e → S.Errors e e

theorem same_of_arithmetical {α : Type} {r : Except Error α} (h : Arithmetical r) : S.Same r r := by
  refine ⟨rfl, fun e he => S.ordinary ?_⟩
  rcases h e he with rfl | rfl | rfl <;> simp [Error.causes]

theorem Same.bind {S : Sharing} {α β : Type} {r r' : Except Error α} {f : α → Except Error β}
    (h : S.Same r r') (hf : ∀ a, S.Same (f a) (f a)) : S.Same (r >>= f) (r' >>= f) := by
  obtain ⟨rfl, herror⟩ := h
  cases r with
  | error e => exact ⟨rfl, fun _ he => Except.error.inj he ▸ herror e rfl⟩
  | ok a => exact hf a

/-- The line calculates from what is shared. -/
def Admits (i : Instr) : Prop :=
  match i.command.action? with
  | some .item => S.Matrix i.operand.text
  | some .lastX => S.LastX
  | action? => action?.all Action.calculates = true

theorem admits_of_computes (h : i.command.action?.all Action.computes = true) : S.Admits i := by
  unfold Admits
  split
  · next ha => simp [ha, Action.computes] at h
  · next ha => simp [ha, Action.computes] at h
  · cases ha : i.command.action? with
    | none => rfl
    | some action =>
      rw [ha] at h
      exact (Bool.and_eq_true_iff.1 h).1

theorem admits_of_calculates (h : i.command.action?.all Action.calculates = true)
    (hmatrix : S.Matrix i.operand.text) (hlastX : S.LastX) : S.Admits i := by
  unfold Admits
  split
  · exact hmatrix
  · exact hlastX
  · exact h

end Sharing

/-! ## Operations on the stack -/

/-- The sessions share what calculations look at. -/
structure Session.SameData (S : Sharing) (s s' : Session) : Prop where
  stack : s.stack = s'.stack
  lastX : S.LastX → s.lastX = s'.lastX
  vars : S.Vars s.vars s'.vars
  solvingFor : s.solvingFor = s'.solvingFor

/-- The session with another stack. -/
def Session.withStack (s : Session) (stack : List Float) (lastX : Float) : Session :=
  { s with stack := stack, lastX := lastX }

section

variable {S : Sharing} {s s' : Session}

theorem Session.SameData.withStack (h : s.SameData S s') (stack : List Float)
    (hx : S.LastX → x = x') : (s.withStack stack x).SameData S (s'.withStack stack x') :=
  ⟨rfl, hx, h.vars, h.solvingFor⟩

theorem Session.SameData.eq_withStack (h : s.SameData S s') :
    s' = s'.withStack s.stack s'.lastX := by
  rw [h.stack]
  rfl

end

/-- Results with stacks that are the same: values that belong together, or an error that belongs to
    itself. -/
inductive Machine.Abreast (S : Sharing) {α β : Type} (R : α → β → Prop) (s s' : Session) :
    EStateM.Result Error Session α → EStateM.Result Error Session β → Prop
  | ok {a : α} {b : β} {stack : List Float} {x x' : Float} (h : R a b) (hx : S.LastX → x = x') :
    Abreast S R s s' (.ok a (s.withStack stack x)) (.ok b (s'.withStack stack x'))
  | error {e : Error} {stack : List Float} {x x' : Float} (h : S.Errors e e)
      (hx : S.LastX → x = x') :
    Abreast S R s s' (.error e (s.withStack stack x)) (.error e (s'.withStack stack x'))

theorem Machine.Abreast.of_withStack {S : Sharing} {α β : Type} {R : α → β → Prop}
    {stack : List Float} {r : EStateM.Result Error Session α} {r' : EStateM.Result Error Session β}
    (h : Abreast S R (s.withStack stack x) (s'.withStack stack x') r r') :
    Abreast S R s s' r r' := by
  cases h with
  | ok h hx => exact .ok h hx
  | error h hx => exact .error h hx

/-- In sessions with the same data the operations fail with the same error or have results that
    belong together, and they change the stack alone, in the same way. -/
def Machine.Parallel (S : Sharing) {α β : Type} (R : α → β → Prop) (m : Machine α)
    (m' : Machine β) : Prop :=
  ∀ s s' : Session, s.SameData S s' → Abreast S R s s' (m s) (m' s')

namespace Machine.Parallel

variable {S : Sharing} {α β γ δ : Type} {R : α → β → Prop} {Q : γ → δ → Prop}

theorem pure {a : α} {b : β} (h : R a b) : Parallel S R (pure a) (pure b) := by
  intro s s' hs
  have hok : Abreast S R s s' (.ok a (s.withStack s.stack s.lastX))
      (.ok b (s'.withStack s.stack s'.lastX)) := .ok h hs.lastX
  rwa [← hs.eq_withStack] at hok

theorem fail {e : Error} (he : S.Errors e e) (hs : s.SameData S s') :
    Abreast S R s s' (.error e s) (.error e s') := by
  have herror : Abreast S R s s' (.error e (s.withStack s.stack s.lastX))
      (.error e (s'.withStack s.stack s'.lastX)) := .error he hs.lastX
  rwa [← hs.eq_withStack] at herror

theorem throw {e : Error} (h : .nonexistent ∉ e.causes) : Parallel S R (throw e) (throw e) :=
  fun _ _ hs => fail (S.ordinary h) hs

theorem bind {m : Machine α} {m' : Machine β} {f : α → Machine γ} {f' : β → Machine δ}
    (h : Parallel S R m m') (hf : ∀ a b, R a b → Parallel S Q (f a) (f' b)) :
    Parallel S Q (m >>= f) (m' >>= f') := by
  intro s s' hs
  have hm := h s s' hs
  generalize hr : m s = r at hm
  generalize hr' : m' s' = r' at hm
  cases hm with
  | error he hx =>
    rw [bind_error hr, bind_error hr']
    exact .error he hx
  | ok hab hx =>
    rw [bind_ok hr, bind_ok hr']
    exact (hf _ _ hab _ _ (hs.withStack _ hx)).of_withStack

/-- One operation behind another whose result is the same in both. -/
theorem bind_eq {m m' : Machine α} {f : α → Machine γ} {f' : α → Machine δ}
    (h : Parallel S Eq m m') (hf : ∀ a, Parallel S Q (f a) (f' a)) :
    Parallel S Q (m >>= f) (m' >>= f') :=
  h.bind fun a _ hab => hab ▸ hf a

theorem get_bind {f : Session → Machine γ} {f' : Session → Machine δ}
    (h : ∀ s s', s.SameData S s' → Parallel S Q (f s) (f' s')) :
    Parallel S Q (get >>= f) (get >>= f') := by
  intro s s' hs
  exact h s s' hs s s' hs

theorem ofExcept {r r' : Except Error α} (h : S.Same r r') :
    Parallel S Eq (ofExcept r) (ofExcept r') := by
  obtain ⟨rfl, herror⟩ := h
  cases r with
  | error e => exact fun s s' hs => fail (herror e rfl) hs
  | ok a => exact pure rfl

theorem modify_stack (g : List Float → List Float) :
    Parallel S Eq (modify fun s => { s with stack := g s.stack } : Machine Unit)
      (modify fun s => { s with stack := g s.stack }) := by
  intro s s' hs
  change Abreast S Eq s s' (.ok () (s.withStack (g s.stack) s.lastX))
    (.ok () (s'.withStack (g s'.stack) s'.lastX))
  rw [← hs.stack]
  exact .ok rfl hs.lastX

end Machine.Parallel

/-! ## Lines -/

namespace Session

open Machine (Parallel)

variable {S : Sharing}

theorem parallel_push (x : Float) : Parallel S Eq (push x) (push x) := .modify_stack (x :: ·)

theorem parallel_top : Parallel S Eq top top := by
  refine .get_bind fun s s' hs => ?_
  rw [hs.stack]
  cases s'.stack with
  | nil => exact .throw (by simp [Error.causes])
  | cons x rest => exact .pure rfl

theorem parallel_pop : Parallel S Eq pop pop := by
  intro s s' hs
  cases hst : s.stack with
  | nil =>
    rw [pop_of_nil hst, pop_of_nil (hs.stack.symm.trans hst)]
    exact Parallel.fail (S.ordinary (by simp [Error.causes])) hs
  | cons x rest =>
    rw [pop_of_cons hst, pop_of_cons (hs.stack.symm.trans hst)]
    exact .ok rfl hs.lastX

theorem parallel_pop2 : Parallel S Eq pop2 pop2 := by
  intro s s' hs
  by_cases hshort : s.stack.length < 2
  · rw [pop2_of_short hshort, pop2_of_short (hs.stack ▸ hshort)]
    exact Parallel.fail (S.ordinary (by simp [Error.causes])) hs
  · obtain ⟨x, y, rest, hst⟩ : ∃ x y rest, s.stack = x :: y :: rest := by
      match hst : s.stack, hshort with
      | x :: y :: rest, _ => exact ⟨x, y, rest, rfl⟩
      | [], h | [_], h => exact absurd h (by simp)
    rw [pop2_of_cons hst, pop2_of_cons (hs.stack.symm.trans hst)]
    exact .ok rfl hs.lastX

theorem parallel_arithLine (op : ArithOp) : Parallel S Eq (arithLine op) (arithLine op) := by
  intro s s' hs
  rw [arithLine, get_bind, get_bind]
  have hpop := parallel_pop2 s s' hs
  generalize hr : pop2 s = r at hpop
  generalize hr' : pop2 s' = r' at hpop
  cases hpop with
  | error he hx =>
    rw [bind_error hr, bind_error hr']
    exact .error he hx
  | @ok a _ _ _ _ hab hx =>
    subst hab
    rw [bind_ok hr, bind_ok hr']
    dsimp only
    cases heval : op.eval a.2 a.1 with
    | ok v => exact .ok rfl fun _ => rfl
    | error e =>
      exact Parallel.fail ((S.same_of_arithmetical (op.arithmetical_eval a.2 a.1)).2 e heval) hs

theorem parallel_realLine (fn : RealFn) : Parallel S Eq (realLine fn) (realLine fn) := by
  refine parallel_top.bind_eq fun x =>
    (Parallel.ofExcept (S.same_of_arithmetical (fn.arithmetical_eval x))).bind_eq fun r => ?_
  intro s s' hs
  change Machine.Abreast S Eq s s' (.ok () (s.withStack (r :: s.stack.tail) x))
    (.ok () (s'.withStack (r :: s'.stack.tail) x))
  rw [← hs.stack]
  exact .ok rfl fun _ => rfl

theorem parallel_extremumLine (n : Int) (greatest : Bool) :
    Parallel S Eq (extremumLine n greatest) (extremumLine n greatest) := by
  intro s s' hs
  have hfail : Machine.Abreast S (@Eq Unit) s s' (.error .tooFewArguments s)
      (.error .tooFewArguments s') := Parallel.fail (S.ordinary (by simp [Error.causes])) hs
  rw [extremumLine, get_bind, get_bind, ← hs.stack]
  split
  · exact hfail
  · cases (s.stack.take n.toNat).reverse with
    | nil => exact hfail
    | cons x rest => exact .ok rfl hs.lastX

/-- The lines go on with the line behind them. -/
def GoOn (next next' : Int) (a b : Next) : Prop := a = { pc := next } ∧ b = { pc := next' }

/-- A line that calculates sees nothing of the program, of levels or of local variables. -/
theorem parallel_perform {i' : Instr} (hc : i'.command = i.command) (ho : i'.operand = i.operand)
    (h : S.Admits i) (next next' : Int) :
    Parallel S (GoOn next next') (perform i next) (perform i' next') := by
  have hgo : Parallel S (GoOn next next') (pure { pc := next }) (pure { pc := next' }) :=
    .pure ⟨rfl, rfl⟩
  unfold Sharing.Admits at h
  cases ha : i.command.action? with
  | none =>
    simp only [perform, hc, ha]
    exact .throw (by simp [Error.causes])
  | some action =>
    rw [ha] at h
    simp only [perform, hc, ho, ha]
    cases action with
    | store | fetch | storeLocal | func | leave | jump | testZero | testPair | skipUnless =>
      exact absurd h (by simp [Action.calculates])
    | number | pi => exact (parallel_push _).bind_eq fun _ => hgo
    | nothing => exact hgo
    | clearX => exact parallel_pop.bind_eq fun _ => (parallel_push 0).bind_eq fun _ => hgo
    | enter => exact parallel_top.bind_eq fun x => (parallel_push x).bind_eq fun _ => hgo
    | swap =>
      exact parallel_pop2.bind_eq fun p =>
        (parallel_push p.1).bind_eq fun _ => (parallel_push p.2).bind_eq fun _ => hgo
    | rollDown => exact (Parallel.modify_stack fun st => st.tail ++ st.take 1).bind_eq fun _ => hgo
    | drop => exact parallel_pop.bind_eq fun _ => hgo
    | lastX =>
      refine .get_bind fun s s' hs => ?_
      rw [hs.lastX h]
      exact (parallel_push _).bind_eq fun _ => hgo
    | arith op => exact (parallel_arithLine op).bind_eq fun _ => hgo
    | real fn => exact (parallel_realLine fn).bind_eq fun _ => hgo
    | compare c | connect c =>
      exact parallel_pop2.bind_eq fun _ => (parallel_push _).bind_eq fun _ => hgo
    | invert => exact parallel_pop.bind_eq fun x => (parallel_push _).bind_eq fun _ => hgo
    | solving =>
      refine .get_bind fun s s' hs => ?_
      rw [hs.solvingFor]
      exact (parallel_push _).bind_eq fun _ => hgo
    | item =>
      refine parallel_top.bind_eq fun x => .get_bind fun s s' hs => ?_
      exact (Parallel.ofExcept (S.item hs.vars h _)).bind_eq fun v =>
        (Parallel.modify_stack (v :: ·.tail)).bind_eq fun _ => hgo
    | extremum greatest => exact (parallel_extremumLine _ greatest).bind_eq fun _ => hgo

/-! ## Runs -/

section

variable {V : Variables → Variables → Prop} {E : Error → Error → Prop}
  {R : Session → Session → Prop}

/-- Runs that show the same: one result and the same numbers, or errors that belong together, and
    variables that do. -/
inductive Shows (V : Variables → Variables → Prop) (E : Error → Error → Prop) {α : Type} :
    EStateM.Result Error Session α → EStateM.Result Error Session α → Prop
  | ok {a : α} {t t' : Session} (hstack : t.stack = t'.stack) (hvars : V t.vars t'.vars) :
    Shows V E (.ok a t) (.ok a t')
  | error {e e' : Error} {t t' : Session} (he : E e e') (hvars : V t.vars t'.vars) :
    Shows V E (.error e t) (.error e' t')

/-- Steps that lead to sessions that belong together, or fail with errors that do. -/
inductive StepsAlike (V : Variables → Variables → Prop) (E : Error → Error → Prop)
    (R : Session → Session → Prop) :
    EStateM.Result Error Session Unit → EStateM.Result Error Session Unit → Prop
  | go {t t' : Session} (h : R t t') : StepsAlike V E R (.ok () t) (.ok () t')
  | fail {e e' : Error} {t t' : Session} (he : E e e') (hvars : V t.vars t'.vars) :
    StepsAlike V E R (.error e t) (.error e' t')

theorem StepsAlike.swap {r' : EStateM.Result Error Session Unit} (h : StepsAlike V E R r r') :
    StepsAlike (flip V) (flip E) (flip R) r' r := by
  cases h with
  | go h => exact .go h
  | fail he hvars => exact .fail he hvars

/-- Sessions that belong together show the same and make steps to such sessions again. -/
structure Bisimulation (V : Variables → Variables → Prop) (E : Error → Error → Prop)
    (R : Session → Session → Prop) : Prop where
  running : ∀ {s s'}, R s s' → s.running = s'.running
  stack : ∀ {s s'}, R s s' → s.stack = s'.stack
  vars : ∀ {s s'}, R s s' → V s.vars s'.vars
  stepLimit : ∀ {s s'}, R s s' → s.running = true → s.stepLimit = s'.stepLimit
  step : ∀ {s s'}, R s s' → s.running = true → StepsAlike V E R (step s) (step s')
  ordinary : ∀ {e}, .nonexistent ∉ e.causes → E e e

namespace Bisimulation

theorem swap (h : Bisimulation V E R) : Bisimulation (flip V) (flip E) (flip R) where
  running hs := (h.running hs).symm
  stack hs := (h.stack hs).symm
  vars hs := h.vars hs
  stepLimit hs hrun := (h.stepLimit hs ((h.running hs).trans hrun)).symm
  step hs hrun := (h.step hs ((h.running hs).trans hrun)).swap
  ordinary he := h.ordinary he

variable {n : Nat} {s s' : Session}

/-- A run that ends ends in the other session too, and shows the same. -/
theorem runFrom_of_eq_some (h : Bisimulation V E R) (hr : runFrom n s = some r) (hs : R s s') :
    ∃ r', runFrom n s' = some r' ∧ Shows V E r r' := by
  refine runFrom.partial_correctness
    (fun n s r => ∀ s', R s s' → ∃ r', runFrom n s' = some r' ∧ Shows V E r r') ?_ n s r hr s' hs
  intro rec ih n s r hbody s' hs
  have hvars := h.vars hs
  rw [runFrom, ← h.running hs]
  cases hrun : s.running with
  | false =>
    obtain rfl : .ok () s = r := by simpa [hrun] using hbody
    exact ⟨_, by simp, .ok (h.stack hs) hvars⟩
  | true =>
    rw [hrun, if_neg (by simp)] at hbody
    rw [if_neg (by simp), ← h.stepLimit hs hrun]
    split at hbody
    · next hlimit =>
      obtain rfl := Option.some_inj.1 hbody
      rw [if_pos hlimit]
      exact ⟨_, rfl, .error (h.ordinary (by simp [Error.causes])) hvars⟩
    · next hlimit =>
      rw [if_neg hlimit]
      have hstep := h.step hs hrun
      generalize Session.step s = r1 at hstep hbody
      generalize Session.step s' = r2 at hstep ⊢
      cases hstep with
      | go ht => exact ih _ _ _ hbody _ ht
      | fail he hvars =>
        obtain rfl := Option.some_inj.1 hbody
        exact ⟨_, rfl, .error he hvars⟩

/-- Runs of sessions that belong together show the same, also where neither ends. -/
theorem shows_run (h : Bisimulation V E R) (hs : R s s') (cancelled : Bool) :
    Shows V E (run cancelled s) (run cancelled s') := by
  have hvars := h.vars hs
  rw [run, run, ← h.running hs]
  split
  · exact .error (h.ordinary (by simp [Error.causes])) hvars
  · cases hr : runFrom 0 s with
    | some r =>
      obtain ⟨r', hr', hshows⟩ := h.runFrom_of_eq_some hr hs
      rwa [hr']
    | none =>
      cases hr' : runFrom 0 s' with
      | none => exact .error (h.ordinary (by simp [Error.causes])) hvars
      | some r' =>
        have hflip : flip R s' s := hs
        obtain ⟨r, hback, -⟩ := h.swap.runFrom_of_eq_some hr' hflip
        rw [hr] at hback
        cases hback

end Bisimulation

end

end Session

end Keystroke
