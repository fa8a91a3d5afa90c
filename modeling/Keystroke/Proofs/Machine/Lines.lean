import Keystroke.Machine.Run
import Keystroke.Proofs.Store.Basic

set_option autoImplicit false

/-! # What lines change

Most lines only calculate: they work on the stack, the last X and the variables, or else fail
without a crash and change nothing (`Session.Quiet`). Besides them there are the line that declares
inputs and outputs, the lines that leave a level, and the jumps (`Session.perform_cases`). -/

namespace Keystroke

open Operation

/-! ## Numbers -/

/-- The computation fails in the ordinary way only. -/
def Orderly {α : Type} (r : Except Error α) : Prop := ∀ e, r = .error e → e.isCrash = false

/-- The computation fails with an error of arithmetic only. -/
def Arithmetical {α : Type} (r : Except Error α) : Prop :=
  ∀ e, r = .error e → e = .divideByZero ∨ e = .outOfRange ∨ e = .invalidData

theorem Arithmetical.orderly {α : Type} {r : Except Error α} (h : Arithmetical r) : Orderly r := by
  intro e he
  rcases h e he with rfl | rfl | rfl <;> rfl

theorem arithmetical_checked (x : Float) : Arithmetical (checked x) := by
  intro e h
  unfold checked at h
  split at h
  · cases h
    simp
  · split at h
    · cases h
      simp
    · cases h

theorem arithmetical_divide {y x : Float} :
    Arithmetical (if x == 0 then .error .divideByZero else checked (y / x)) := by
  split
  · intro e h
    cases h
    simp
  · exact arithmetical_checked _

theorem ArithOp.arithmetical_eval (op : ArithOp) (y x : Float) : Arithmetical (op.eval y x) := by
  cases op with
  | div => exact arithmetical_divide
  | mod =>
    change Arithmetical (if x == 0 then .ok y else checked (y - x * (y / x).floor))
    split
    · intro e h
      cases h
    · exact arithmetical_checked _
  | add | sub | mul | pow | percent => exact arithmetical_checked _

theorem RealFn.arithmetical_eval (fn : RealFn) (x : Float) : Arithmetical (fn.eval x) := by
  cases fn with
  | reciprocal => exact arithmetical_divide
  | _ => exact arithmetical_checked _

/-! ## Tests -/

/-- Whether the action may skip the next line. -/
def Action.isTest : Action → Bool
  | testZero _ | testPair _ | skipUnless => true
  | _ => false

theorem Command.isConditional_eq_isTest {c : Command} {a : Action} (h : c.action? = some a) :
    c.isConditional = a.isTest := by
  have htable : ∀ entry ∈ actions, entry.1.isConditional = entry.2.isTest := by decide
  obtain ⟨l₁, l₂, hsplit, -⟩ := List.lookup_eq_some_iff.1 h
  exact htable (c, a) (by simp [hsplit])

namespace Session

variable {s t u : Session}

theorem orderly_valueOf (s : Session) (name : Bytes) : Orderly (s.valueOf name) := by
  intro e h
  unfold valueOf at h
  split at h
  · cases h
  · unfold Variables.fetch at h
    split at h
    · cases h
    · cases h
      rfl

theorem orderly_item (v : Variables) (name : Bytes) (index : Int) :
    Orderly (v.item name index) := by
  intro e h
  unfold Variables.item at h
  split at h
  · cases h
    rfl
  · split at h
    · cases h
      rfl
    · split at h
      · cases h
      · cases h
        rfl

/-! ## Operations that only calculate -/

/-- The sessions differ in the stack, the last X and the variables at most. -/
def Calculated (s t : Session) : Prop :=
  ∃ stack lastX vars locals,
    t = { s with stack := stack, lastX := lastX, vars := vars, locals := locals }

theorem Calculated.refl (s : Session) : s.Calculated s := ⟨_, _, _, _, rfl⟩

theorem Calculated.trans (h : s.Calculated t) (h' : t.Calculated u) : s.Calculated u := by
  obtain ⟨_, _, _, _, rfl⟩ := h
  obtain ⟨_, _, _, _, rfl⟩ := h'
  exact ⟨_, _, _, _, rfl⟩

/-- The operation reads the session, or fails in the ordinary way. -/
def Looks {α : Type} (x : Machine α) : Prop :=
  ∀ s, Outcome (fun _ t => t = s) (fun e t => e.isCrash = false ∧ t = s) (x s)

/-- The operation calculates and does not fail. -/
def Works {α : Type} (R : α → Prop) (x : Machine α) : Prop :=
  ∀ s, ∃ a t, x s = .ok a t ∧ R a ∧ s.Calculated t

/-- The operation calculates, or fails in the ordinary way and changes nothing. -/
def Quiet {α : Type} (R : α → Prop) (x : Machine α) : Prop :=
  ∀ s, Outcome (fun a t => R a ∧ s.Calculated t) (fun e t => e.isCrash = false ∧ t = s) (x s)

section

variable {α β : Type} {x : Machine α} {f : α → Machine β} {T : α → Prop} {R : β → Prop}

theorem Works.pure {a : α} (h : T a) : Works T (pure a : Machine α) :=
  fun s => ⟨a, s, rfl, h, .refl s⟩

theorem Works.bind (hx : Works T x) (hf : ∀ a, Works R (f a)) : Works R (x >>= f) := by
  intro s
  obtain ⟨a, t, hrun, -, hst⟩ := hx s
  obtain ⟨b, u, hrun', hb, htu⟩ := hf a t
  exact ⟨b, u, by rw [bind_ok hrun, hrun'], hb, hst.trans htu⟩

theorem Works.quiet (hx : Works T x) : Quiet T x := by
  intro s
  obtain ⟨a, t, hrun, ha⟩ := hx s
  rw [hrun]
  exact .ok ha

/-- What follows a calculation does not fail, or the calculation would have to be undone. -/
theorem Quiet.bind (hx : Quiet T x) (hf : ∀ a, Works R (f a)) : Quiet R (x >>= f) := by
  intro s
  refine (hx s).bind fun a t hat => ?_
  obtain ⟨b, u, hrun, hb, htu⟩ := hf a t
  rw [hrun]
  exact .ok ⟨hb, hat.2.trans htu⟩

theorem Quiet.get_bind {g : Session → Machine β} (hg : ∀ s, Quiet R (g s)) : Quiet R (get >>= g) :=
  fun s => hg s s

theorem Looks.bind (hx : Looks x) (hf : ∀ a, Quiet R (f a)) : Quiet R (x >>= f) := by
  intro s
  refine (hx s).bind fun a t ht => ?_
  obtain rfl : t = s := ht
  exact hf a t

theorem Looks.quiet (hx : Looks x) : Quiet (fun _ => True) x :=
  fun s => (hx s).imp (fun _ _ ht => ⟨trivial, ht ▸ .refl s⟩) fun _ _ h => h

theorem quiet_throw {e : Error} (h : e.isCrash = false) : Quiet T (throw e : Machine α) :=
  fun _ => .error ⟨h, rfl⟩

theorem looks_ofExcept {r : Except Error α} (h : Orderly r) : Looks (Machine.ofExcept r) := by
  intro s
  cases r with
  | ok a => exact .ok rfl
  | error e => exact .error ⟨h e rfl, rfl⟩

theorem works_modify {g : Session → Session} (hg : ∀ s : Session, s.Calculated (g s)) :
    Works (fun _ => True) (modify g : Machine Unit) :=
  fun s => ⟨(), g s, rfl, trivial, hg s⟩

end

/-! ## The stack and the variables -/

theorem works_push (x : Float) : Works (fun _ => True) (push x) :=
  works_modify fun _ => ⟨_, _, _, _, rfl⟩

theorem works_setTop (x : Float) : Works (fun _ => True) (setTop x) :=
  works_modify fun _ => ⟨_, _, _, _, rfl⟩

theorem looks_top : Looks top := by
  intro s
  unfold top
  rw [get_bind]
  cases s.stack with
  | nil => exact .error ⟨rfl, rfl⟩
  | cons x rest => exact .ok rfl

theorem quiet_pop : Quiet (fun _ => True) pop := by
  intro s
  unfold pop
  rw [get_bind]
  cases s.stack with
  | nil => exact .error ⟨rfl, rfl⟩
  | cons x rest => exact .ok ⟨trivial, _, _, _, _, rfl⟩

theorem quiet_pop2 : Quiet (fun _ => True) pop2 := by
  intro s
  unfold pop2
  rw [get_bind]
  rcases s.stack with _ | ⟨x, _ | ⟨y, rest⟩⟩
  · exact .error ⟨rfl, rfl⟩
  · exact .error ⟨rfl, rfl⟩
  · exact .ok ⟨trivial, _, _, _, _, rfl⟩

theorem calculated_storeVariable (s : Session) (name : Bytes) (x : Float) :
    s.Calculated (s.storeVariable name x) := by
  unfold storeVariable
  split <;> exact ⟨_, _, _, _, rfl⟩

theorem looks_nameOperand (line : Instr) : Looks (nameOperand line) := by
  unfold nameOperand
  split
  · exact fun _ => .ok rfl
  · exact fun _ => .error ⟨rfl, rfl⟩

theorem quiet_storeLine (line : Instr) (op? : Option ArithOp) :
    Quiet (fun _ => True) (storeLine line op?) := by
  refine (looks_nameOperand line).bind fun name => looks_top.bind fun x => ?_
  cases op? with
  | none => exact (works_modify fun s => calculated_storeVariable s name x).quiet
  | some op =>
    refine .get_bind fun s => (looks_ofExcept (s.orderly_valueOf name)).bind fun v => ?_
    refine (looks_ofExcept (op.arithmetical_eval v x).orderly).bind fun r => ?_
    exact (works_modify fun s => calculated_storeVariable s name r).quiet

theorem quiet_recallLine (line : Instr) (op? : Option ArithOp) :
    Quiet (fun _ => True) (recallLine line op?) := by
  refine (looks_nameOperand line).bind fun name => .get_bind fun s => ?_
  refine (looks_ofExcept (s.orderly_valueOf name)).bind fun v => ?_
  cases op? with
  | none => exact (works_push v).quiet
  | some op =>
    refine looks_top.bind fun x => (looks_ofExcept (op.arithmetical_eval x v).orderly).bind
      fun r => ?_
    exact (works_setTop r).quiet

/-- When the result cannot be had, the numbers that were taken off are put back. -/
theorem quiet_arithLine (op : ArithOp) : Quiet (fun _ => True) (arithLine op) := by
  intro s
  refine (quiet_pop2 s).bind fun xy t ht => ?_
  obtain ⟨-, _, _, _, _, rfl⟩ := ht
  dsimp only
  cases hr : op.eval xy.2 xy.1 with
  | ok r => exact .ok ⟨trivial, _, _, _, _, rfl⟩
  | error e => exact .error ⟨(op.arithmetical_eval _ _).orderly e hr, rfl⟩

theorem quiet_realLine (fn : RealFn) : Quiet (fun _ => True) (realLine fn) := by
  refine looks_top.bind fun x => (looks_ofExcept (fn.arithmetical_eval x).orderly).bind fun r => ?_
  exact (works_modify fun _ => ⟨_, _, _, _, rfl⟩).quiet

theorem quiet_extremumLine (n : Int) (greatest : Bool) :
    Quiet (fun _ => True) (extremumLine n greatest) := by
  intro s
  unfold extremumLine
  rw [get_bind]
  split
  · exact .error ⟨rfl, rfl⟩
  · split
    · exact .error ⟨rfl, rfl⟩
    · exact .ok ⟨trivial, _, _, _, _, rfl⟩

/-! ## Lines -/

/-- The machine goes on behind a line; only a test may skip another one. -/
def Next.Follows (c : Command) (next : Int) (n : Next) : Prop :=
  n.pc = next ∧ (n.skip = true → c.isConditional = true)

/-- What a line can do: calculate and go on behind it, declare inputs and outputs, leave the level,
    or jump. -/
theorem perform_cases (line : Instr) (next : Int) :
    (Quiet (·.Follows line.command next) (perform line next) ∧ line.command.action? ≠ some .leave) ∨
      (line.command.action? = some .func ∧ perform line next = (do
        declare line.operand.num.toInt
        return { pc := next })) ∨
      (line.command.action? = some .leave ∧ perform line next = leave next) ∨
      ∃ call, line.command.action? = some (.jump call) ∧
        perform line next = jump line next call := by
  -- The lines that calculate end by going on behind them, with or without a test.
  have hstay (skip : Bool) (h : skip = true → line.command.isConditional = true) :
      Quiet (·.Follows line.command next) (pure { pc := next, skip := skip } : Machine Next) :=
    (Works.pure ⟨rfl, h⟩).quiet
  have hon {α : Type} {skip : α → Bool} {x : Machine α} (hx : Quiet (fun _ => True) x)
      (h : line.command.isConditional = true) : Quiet (·.Follows line.command next)
        (do let a ← x; return { pc := next, skip := skip a } : Machine Next) :=
    hx.bind fun _ => .pure ⟨rfl, fun _ => h⟩
  have hend : (⟨next, false⟩ : Next).Follows line.command next := ⟨rfl, by simp⟩
  have hgo {α : Type} {x : Machine α} (hx : Quiet (fun _ => True) x) :
      Quiet (·.Follows line.command next) (do let _ ← x; return { pc := next } : Machine Next) :=
    hx.bind fun _ => .pure hend
  have hput {α : Type} {x : Machine α} {y : α → Float} (hx : Quiet (fun _ => True) x) :
      Quiet (·.Follows line.command next)
        (do let a ← x; push (y a); return { pc := next } : Machine Next) :=
    hx.bind fun a => (works_push (y a)).bind fun _ => .pure hend
  unfold perform
  cases haction : line.command.action? with
  | none => exact .inl ⟨quiet_throw rfl, by simp⟩
  | some action =>
    have htest (h : action.isTest = true) : line.command.isConditional = true :=
      (Command.isConditional_eq_isTest haction).trans h
    cases action with
    | func => exact .inr (.inl ⟨rfl, rfl⟩)
    | leave => exact .inr (.inr (.inl ⟨rfl, rfl⟩))
    | jump call => exact .inr (.inr (.inr ⟨call, rfl, rfl⟩))
    | number | pi => exact .inl ⟨hgo (works_push _).quiet, by simp⟩
    | nothing => exact .inl ⟨hstay false (by simp), by simp⟩
    | clearX => exact .inl ⟨hput quiet_pop, by simp⟩
    | enter => exact .inl ⟨hput looks_top.quiet, by simp⟩
    | swap =>
      refine .inl ⟨quiet_pop2.bind fun xy => ?_, by simp⟩
      exact (works_push _).bind fun _ => (works_push _).bind fun _ => .pure hend
    | rollDown => exact .inl ⟨hgo (works_modify fun _ => ⟨_, _, _, _, rfl⟩).quiet, by simp⟩
    | drop => exact .inl ⟨hgo quiet_pop, by simp⟩
    | lastX => exact .inl ⟨.get_bind fun _ => hgo (works_push _).quiet, by simp⟩
    | arith op => exact .inl ⟨hgo (quiet_arithLine op), by simp⟩
    | real fn => exact .inl ⟨hgo (quiet_realLine fn), by simp⟩
    | store op? => exact .inl ⟨hgo (quiet_storeLine line op?), by simp⟩
    | fetch op? => exact .inl ⟨hgo (quiet_recallLine line op?), by simp⟩
    | storeLocal =>
      refine .inl ⟨looks_top.bind fun x => ?_, by simp⟩
      exact hgo (works_modify fun _ => ⟨_, _, _, _, rfl⟩).quiet
    | testZero c => exact .inl ⟨hon looks_top.quiet (htest rfl), by simp⟩
    | testPair c =>
      refine .inl ⟨.get_bind fun s => ?_, by simp⟩
      rcases s.stack with _ | ⟨x, _ | ⟨y, rest⟩⟩
      · exact quiet_throw rfl
      · exact quiet_throw rfl
      · exact hstay _ fun _ => htest rfl
    | compare c | connect c => exact .inl ⟨hput quiet_pop2, by simp⟩
    | invert => exact .inl ⟨hput quiet_pop, by simp⟩
    | skipUnless => exact .inl ⟨hon quiet_pop (htest rfl), by simp⟩
    | solving => exact .inl ⟨.get_bind fun _ => hgo (works_push _).quiet, by simp⟩
    | item =>
      refine .inl ⟨looks_top.bind fun x => .get_bind fun s => ?_, by simp⟩
      exact (looks_ofExcept (orderly_item _ _ _)).bind fun v => hgo (works_setTop v).quiet
    | extremum greatest => exact .inl ⟨hgo (quiet_extremumLine _ greatest), by simp⟩

/-! ## Leaving a level -/

/-- A level is left in three parts: it is taken off, its outputs are taken, and the machine goes
    back. -/
theorem leave_apply (s : Session) (next : Int) :
    leave next s = (do
      let popped ← popReturn
      takeOutputs popped (s.funcs.find? s.calls.level)
      goBack popped next : Machine Next) { s with
        locals := s.locals.remove s.calls.level, funcs := s.funcs.remove s.calls.level } := by
  rfl

end Session

end Keystroke
