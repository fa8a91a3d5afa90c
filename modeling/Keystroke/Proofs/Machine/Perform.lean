import Keystroke.Machine.Run
import Keystroke.Proofs.Store.Basic

set_option autoImplicit false

/-! # What lines do

What performing a line does to a session, one lemma for each kind of action, and one for those that
only calculate on the stack (`Instr.Calculates`). The session is named once and everything that
stays is said by the record that changes. The lemma about a line that can fail also says how
(`perform_store_eq`). -/

namespace Keystroke

variable {s : Session} {op : ArithOp} {i : Int} {stack : List Float} {record : FuncRecord}

open Operation

@[simp]
theorem Machine.ofExcept_ok {α : Type} (a : α) : Machine.ofExcept (.ok a) s = .ok a s := rfl

@[simp]
theorem Machine.ofExcept_error {α : Type} (e : Error) :
    (Machine.ofExcept (.error e) : Machine α) s = .error e s := rfl

/-- What a line that calculates takes the stack to, where the machine solves for the target, and
    names have values. -/
inductive Instr.Calculates (line : Instr) (target : Bytes) (vars : Variables)
    (valueOf : Bytes → Except Error Float) : List Float → List Float → Prop
  | number {st : List Float} (hc : line.command.action? = some .number) :
      Calculates line target vars valueOf st (Float.ofBits line.operand.value :: st)
  | pi {st : List Float} (hc : line.command.action? = some .pi) :
      Calculates line target vars valueOf st (Float.ofBits 0x400921FB54442D18 :: st)
  | solving {st : List Float} (hc : line.command.action? = some .solving) :
      Calculates line target vars valueOf st
        (truth (!target.isEmpty && target == line.operand.text) :: st)
  | fetch {r : Float} {st : List Float} (hc : line.command.action? = some (.fetch none))
      (hk : line.operand.kind = .text) (hr : valueOf line.operand.text = .ok r) :
      Calculates line target vars valueOf st (r :: st)
  | drop {x : Float} {st : List Float} (hc : line.command.action? = some .drop) :
      Calculates line target vars valueOf (x :: st) st
  | arith {op : ArithOp} {x y r : Float} {st : List Float}
      (hc : line.command.action? = some (.arith op)) (hr : op.eval y x = .ok r) :
      Calculates line target vars valueOf (x :: y :: st) (r :: st)
  | real {fn : RealFn} {x r : Float} {st : List Float}
      (hc : line.command.action? = some (.real fn)) (hr : fn.eval x = .ok r) :
      Calculates line target vars valueOf (x :: st) (r :: st)
  | compare {c : Comparison} {x y : Float} {st : List Float}
      (hc : line.command.action? = some (.compare c)) :
      Calculates line target vars valueOf (x :: y :: st) (truth (c.holds y x) :: st)
  | connect {c : Connective} {x y : Float} {st : List Float}
      (hc : line.command.action? = some (.connect c)) :
      Calculates line target vars valueOf (x :: y :: st)
        (truth (c.holds (y != 0) (x != 0)) :: st)
  | invert {x : Float} {st : List Float} (hc : line.command.action? = some .invert) :
      Calculates line target vars valueOf (x :: st) (truth (x == 0) :: st)
  | item {x r : Float} {st : List Float} (hc : line.command.action? = some .item)
      (hr : vars.item line.operand.text (indexOf x) = .ok r) :
      Calculates line target vars valueOf (x :: st) (r :: st)
  | extremum {greatest : Bool} {x : Float} {xs st : List Float}
      (hc : line.command.action? = some (.extremum greatest))
      (hn : line.operand.num.toInt = (x :: xs).length) :
      Calculates line target vars valueOf ((x :: xs).reverse ++ st)
        (extremumFrom greatest x xs :: st)

namespace Session

variable {s : Session} {line : Instr} {next : Int} {x y r : Float} {rest : List Float}

/-! ## The stack -/

theorem push_apply (x : Float) : push x s = .ok () { s with stack := x :: s.stack } := rfl

theorem top_of_cons (h : s.stack = x :: rest) : top s = .ok x s := by
  simp only [top, get_bind, h, pure_apply]

theorem top_of_nil (h : s.stack = []) : top s = .error .tooFewArguments s := by
  simp only [top, get_bind, h]
  rfl

theorem pop_of_cons (h : s.stack = x :: rest) : pop s = .ok x { s with stack := rest } := by
  simp only [pop, get_bind, h, set_bind, pure_apply]

theorem pop_of_nil (h : s.stack = []) : pop s = .error .tooFewArguments s := by
  simp only [pop, get_bind, h]
  rfl

theorem pop2_of_cons (h : s.stack = x :: y :: rest) :
    pop2 s = .ok (x, y) { s with stack := rest } := by
  simp only [pop2, get_bind, h, set_bind, pure_apply]

theorem pop2_of_short (h : s.stack.length < 2) : pop2 s = .error .tooFewArguments s := by
  match hst : s.stack, h with
  | [], _ | [x], _ =>
    simp only [pop2, get_bind, hst]
    rfl

/-! ## Lines -/

theorem perform_skipUnless_eq (hc : line.command.action? = some .skipUnless) :
    perform line next s = match s.stack with
      | [] => .error .tooFewArguments s
      | x :: rest => .ok { pc := next, skip := x == 0 } { s with stack := rest } := by
  cases hs : s.stack with
  | nil => simp only [perform, hc, bind_error (pop_of_nil hs)]
  | cons x rest =>
    simp only [perform, hc, bind_ok (pop_of_cons hs), pure_apply]

/-! ## Names -/

theorem nameOperand_of_text (h : line.operand.kind = .text) :
    nameOperand line s = .ok line.operand.text s := by
  simp only [nameOperand, h, if_true, pure_apply]

theorem perform_fetch_eq (hc : line.command.action? = some (.fetch none))
    (hk : line.operand.kind = .text) :
    perform line next s = match s.valueOf line.operand.text with
      | .error e => .error e s
      | .ok r => .ok { pc := next } { s with stack := r :: s.stack } := by
  simp only [perform, hc]
  cases hr : s.valueOf line.operand.text with
  | error e =>
    have hline : recallLine line none s = .error e s := by
      simp only [recallLine, bind_ok (nameOperand_of_text hk), get_bind, hr,
        bind_error (Machine.ofExcept_error e)]
    exact bind_error hline
  | ok r =>
    have hline : recallLine line none s = .ok () { s with stack := r :: s.stack } := by
      simp only [recallLine, bind_ok (nameOperand_of_text hk), get_bind, hr,
        bind_ok (Machine.ofExcept_ok r), push_apply]
    exact bind_ok hline

/-! ## Calculations -/

theorem perform_extremum {greatest : Bool} {xs : List Float}
    (hc : line.command.action? = some (.extremum greatest))
    (hn : line.operand.num.toInt = (x :: xs).length) (hs : s.stack = (x :: xs).reverse ++ rest) :
    perform line next s
      = .ok { pc := next } { s with stack := extremumFrom greatest x xs :: rest } := by
  have hlen : (x :: xs).length = (x :: xs).reverse.length := List.length_reverse.symm
  have hsmall : ((line.operand.num.toInt < 1 ||
      ((s.stack.length : Int) < line.operand.num.toInt : Bool))) = false := by
    simp only [hn, hs, Bool.or_eq_false_iff, decide_eq_false_iff_not, List.length_append,
      List.length_reverse, List.length_cons]
    omega
  have htake : (s.stack.take line.operand.num.toInt.toNat).reverse = x :: xs := by
    rw [hn, hs, Int.toNat_natCast, hlen, List.take_left, List.reverse_reverse]
  have hdrop : s.stack.drop line.operand.num.toInt.toNat = rest := by
    rw [hn, hs, Int.toNat_natCast, hlen, List.drop_left]
  simp only [perform, hc, extremumLine, bind_assoc, get_bind, hsmall, htake, hdrop,
    Bool.false_eq_true, if_false]
  rfl

/-- A line that calculates changes nothing but the stack and the X that was last in use. -/
theorem perform_of_calculates {st : List Float}
    (h : line.Calculates s.solvingFor s.vars s.valueOf s.stack st) :
    ∃ x, perform line next s = .ok { pc := next } { s with lastX := x, stack := st } := by
  generalize hs : s.stack = old at h
  cases h with
  | number hc | pi hc | solving hc =>
    refine ⟨s.lastX, ?_⟩
    simp only [perform, hc, ← hs]
    rfl
  | fetch hc hk hr =>
    refine ⟨s.lastX, ?_⟩
    rw [perform_fetch_eq hc hk, hr, hs]
  | drop hc =>
    refine ⟨s.lastX, ?_⟩
    simp only [perform, hc, bind_ok (pop_of_cons hs), pure_apply]
  | invert hc =>
    refine ⟨s.lastX, ?_⟩
    simp only [perform, hc, bind_ok (pop_of_cons hs)]
    rfl
  | compare hc | connect hc =>
    refine ⟨s.lastX, ?_⟩
    simp only [perform, hc, bind_ok (pop2_of_cons hs)]
    rfl
  | @arith op x y r rest hc hr =>
    refine ⟨x, ?_⟩
    simp only [perform, hc, arithLine, bind_assoc, get_bind, bind_ok (pop2_of_cons hs), hr]
    rfl
  | @real fn x r rest hc hr =>
    refine ⟨x, ?_⟩
    simp only [perform, hc, realLine, bind_assoc, bind_ok (top_of_cons hs), hr,
      bind_ok (Machine.ofExcept_ok r)]
    change EStateM.Result.ok _ { s with lastX := x, stack := r :: s.stack.tail } = _
    rw [hs, List.tail_cons]
  | @item x r rest hc hr =>
    refine ⟨s.lastX, ?_⟩
    simp only [perform, hc, bind_ok (top_of_cons hs), get_bind, hr, bind_ok (Machine.ofExcept_ok r)]
    change EStateM.Result.ok _ { s with stack := r :: s.stack.tail } = _
    rw [hs, List.tail_cons]
  | extremum hc hn => exact ⟨s.lastX, perform_extremum hc hn hs⟩

/-! ## Stores -/

/-- What a store line stores: X, or X combined with the value that the name has. -/
def combined (s : Session) (name : Bytes) (x : Float) : Option ArithOp → Except Error Float
  | none => .ok x
  | some op => do
    let v ← s.valueOf name
    op.eval v x

theorem storeLine_of_cons (op? : Option ArithOp) (hk : line.operand.kind = .text)
    (hs : s.stack = x :: rest) :
    storeLine line op? s = match s.combined line.operand.text x op? with
      | .error e => .error e s
      | .ok r => .ok () (s.storeVariable line.operand.text r) := by
  rw [storeLine, bind_ok (nameOperand_of_text hk), bind_ok (top_of_cons hs)]
  cases op? with
  | none => rfl
  | some op =>
    simp only [get_bind, combined]
    cases s.valueOf line.operand.text with
    | error e => rfl
    | ok v =>
      rw [bind_ok (Machine.ofExcept_ok v)]
      change _ = match op.eval v x with
        | .error e => _
        | .ok r => _
      cases op.eval v x <;> rfl

theorem perform_store_eq {op? : Option ArithOp} (hc : line.command.action? = some (.store op?))
    (hk : line.operand.kind = .text) :
    perform line next s = match s.stack with
      | [] => .error .tooFewArguments s
      | x :: _ => match s.combined line.operand.text x op? with
        | .error e => .error e s
        | .ok r => .ok { pc := next } (s.storeVariable line.operand.text r) := by
  simp only [perform, hc]
  cases hs : s.stack with
  | nil =>
    have hline : storeLine line op? s = .error .tooFewArguments s := by
      rw [storeLine, bind_ok (nameOperand_of_text hk), bind_error (top_of_nil hs)]
    exact bind_error hline
  | cons x rest =>
    have hline := storeLine_of_cons op? hk hs
    dsimp only
    cases hr : s.combined line.operand.text x op? with
    | error e =>
      rw [hr] at hline
      exact bind_error hline
    | ok r =>
      rw [hr] at hline
      exact bind_ok hline

theorem perform_storeLocal_eq (hc : line.command.action? = some .storeLocal) :
    perform line next s = match s.stack with
      | [] => .error .tooFewArguments s
      | x :: _ => .ok { pc := next } (s.putLocal s.calls.level line.operand.text x) := by
  cases hs : s.stack with
  | nil => simp only [perform, hc, bind_error (top_of_nil hs)]
  | cons x rest =>
    simp only [perform, hc, bind_ok (top_of_cons hs), modify_bind, pure_apply]

/-! ## Control -/

theorem perform_jump (hc : line.command.action? = some (.jump false))
    (hk : line.operand.kind ≠ .text) (ht : ¬ line.operand.target < 0) :
    perform line next s = .ok { pc := line.operand.target.toInt } s := by
  simp only [perform, hc, jump, if_neg hk, if_neg ht, Bool.false_eq_true, if_false, pure_apply]

section

variable (hc : line.command.action? = some (.jump true)) (hk : line.operand.kind ≠ .text) (ht : ¬
  line.operand.target < 0)

include hc hk ht

theorem perform_call_full (hfull : (s.calls.level : Int) = s.calls.max) :
    perform line next s = .error .returnStackFull s := by
  simp only [perform, hc, jump, if_neg hk, if_neg ht, if_true, get_bind, pushReturn, bind_assoc,
    CallStack.push, if_pos hfull, bind_error (Machine.ofExcept_error _)]

theorem perform_call
    (hroom : (s.calls.level : Int) ≠ s.calls.max) (hcur : s.current = .equation i) :
    perform line next s = .ok { pc := line.operand.target.toInt } { s with
      calls := { s.calls with
        slots := .pending (.equation i) next false false :: s.calls.slots
        level := s.calls.level + 1 }
      store := s.store.retain (.equation i) } := by
  have hpush : s.calls.push (.equation i) next = .ok { s.calls with
      slots := .pending (.equation i) next false false :: s.calls.slots
      level := s.calls.level + 1 } := by
    simp [CallStack.push, hroom]
  simp only [perform, hc, jump, if_neg hk, if_neg ht, if_true, get_bind, hcur, pushReturn,
    bind_assoc, hpush, bind_ok (Machine.ofExcept_ok _)]
  rfl

end

/-- A return goes back to the caller; the variables of the level that is left are gone. -/
theorem perform_leave {pc : Int} {slots : List Slot} {n : Nat}
    (hc : line.command.action? = some .leave) (hlevel : s.calls.level = n + 1)
    (hslots : s.calls.slots = .pending (.equation i) pc false false :: slots)
    (hstop : s.calls.stopLevel = -1) :
    perform line next s = .ok { pc := pc } { s with
      locals := s.locals.remove (n + 1)
      funcs := s.funcs.remove (n + 1)
      calls := { s.calls with slots := slots, level := n }
      store := s.store.release (.equation i)
      current := .equation i } := by
  have hpop : s.calls.pop = .ok ({ frame := ⟨.equation i, pc, false⟩ },
      { s.calls with slots := slots, level := n }) := by
    have hlow : ¬ (n : Int) ≤ -1 := by omega
    simp [CallStack.pop, hslots, hlevel, hstop, hlow, pure, Except.pure, bind, Except.bind]
  simp only [perform, hc, leave, get_bind, modify_bind, hlevel, popReturn, bind_assoc, hpop,
    bind_ok (Machine.ofExcept_ok _)]
  rfl

theorem error_of_keepOutputs {e : Error} (h : keepOutputs stack record = .error e) :
    e = .outOfBounds := by
  simp only [keepOutputs] at h
  split at h
  · exact (Except.error.inj h).symm
  · cases h

/-- A return from level zero stops the machine; of what stands on the inputs it keeps the
    outputs. -/
theorem perform_leave_base_eq (hc : line.command.action? = some .leave) (hlevel : s.calls.level = 0)
    (hcursor : s.calls.baseCursor = false) (hfunc : s.calls.baseFunc = true)
    (hrecord : s.funcs.find? 0 = some record) :
    perform line next s = match keepOutputs s.stack record with
      | .error e => .error e { s with
        locals := s.locals.remove 0
        funcs := s.funcs.remove 0
        calls := { s.calls with stopLevel := -1, baseFunc := false } }
      | .ok stack => .ok { pc := next } { s with
        locals := s.locals.remove 0
        funcs := s.funcs.remove 0
        calls := { s.calls with stopLevel := -1, baseFunc := false }
        stack := stack
        running := false } := by
  have hpop : s.calls.pop = .ok ({ frame := ⟨.none, -1, true⟩, top := true },
      { s.calls with stopLevel := -1, baseFunc := false }) := by
    simp [CallStack.pop, CallStack.popBase, hlevel, hcursor, hfunc, pure, Except.pure]
  simp only [perform, hc, leave, takeOutputs, goBack, get_bind, modify_bind, hlevel, hrecord,
    popReturn, bind_assoc, hpop, bind_ok (Machine.ofExcept_ok _), set_bind, pure_bind, if_true]
  cases hkeep : keepOutputs s.stack record with
  | error e => simp only [bind_error (Machine.ofExcept_error e)]
  | ok stack =>
    simp only [bind_ok (Machine.ofExcept_ok stack), modify_bind, pure_apply]

theorem perform_func_nil (hc : line.command.action? = some .func) (hn : line.operand.num = 11)
    (hs : s.stack = []) : perform line next s = .error .tooFewArguments s := by
  have hin : (11 : Int32).toInt.tdiv 10 = 1 := by decide
  simp only [perform, hc, declare, hn, hin, bind_assoc, get_bind, hs, List.length_nil]
  rfl

theorem perform_func (hc : line.command.action? = some .func) (hn : line.operand.num = 11)
    (hlevel : s.calls.level = 0) (hs : s.stack ≠ []) :
    perform line next s = .ok { pc := next } { s with
      calls := { s.calls with baseFunc := true }
      funcs := s.funcs.put 0 ⟨s.stack.length - 1, 1⟩ } := by
  have hmark : s.calls.markFunc = .ok { s.calls with baseFunc := true } := by
    simp [CallStack.markFunc, hlevel]
  have hhigh : ¬ (s.stack.length : Int) < 1 := by
    have : s.stack.length ≠ 0 := by simpa using hs
    omega
  have hin : (11 : Int32).toInt.tdiv 10 = 1 := by decide
  have hout : (11 : Int32).toInt.tmod 10 = 1 := by decide
  simp only [perform, hc, declare, hn, hin, hout, bind_assoc, get_bind, if_neg hhigh, hmark,
    bind_ok (Machine.ofExcept_ok _), hlevel]
  rfl

end Session

end Keystroke
