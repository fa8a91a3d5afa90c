import Keystroke.Compile.Generate
import Keystroke.Machine.Run

set_option autoImplicit false

/-! # The value of an expression

Expressions are evaluated directly: operands from left to right, and of a condition only the
branch that holds. A sum binds its index in a scope of its own. Names are looked up through the
scopes from the inside out and then among the variables, so the body of a sum sees the indices of
all sums around it. The arithmetic is the machine's. A sum whose count is too large to go down by
one has no value, so the evaluator is partial. -/

namespace Keystroke

/-- What an expression is evaluated in. -/
structure Env where
  /-- The indices of the sums under way with their values, innermost first. -/
  scopes : List (Bytes × Float) := []
  vars : Variables := {}

/-- A computation that may read and change the environment, fail, or never end. -/
abbrev Eval := StateT Env (ExceptT Error Option)

namespace Eval

variable {α β : Type}

/-- What a computation comes to; nothing when it never ends. -/
def outcome (x : Eval α) (env : Env) : Option (Except Error (α × Env)) := x env

/-- The computation ends with a result and an environment. -/
def Yields (x : Eval α) (env : Env) (a : α) (env' : Env) : Prop :=
  x.outcome env = some (.ok (a, env'))

/-- A result that does not depend on the environment. -/
def ofExcept (r : Except Error α) : Eval α := fun env => some (r.map (·, env))

theorem outcome_bind (x : Eval α) (f : α → Eval β) (env : Env) :
    (x >>= f).outcome env = (x.outcome env).bind fun
      | .ok (a, env) => (f a).outcome env
      | .error e => some (.error e) := by
  change Option.bind _ _ = Option.bind _ _
  congr 1
  funext r
  cases r <;> rfl

theorem yields_bind {x : Eval α} {f : α → Eval β} {env env' : Env} {b : β} :
    (x >>= f).Yields env b env' ↔ ∃ a mid, x.Yields env a mid ∧ (f a).Yields mid b env' := by
  simp only [Yields, outcome_bind, Option.bind_eq_some_iff]
  constructor
  · rintro ⟨r, hr, h⟩
    rcases r with e | ⟨a, mid⟩
    · exact absurd h (by simp)
    · exact ⟨a, mid, hr, h⟩
  · rintro ⟨a, mid, hr, h⟩
    exact ⟨.ok (a, mid), hr, h⟩

@[simp] theorem yields_pure {a b : α} {env env' : Env} :
    (pure a : Eval α).Yields env b env' ↔ a = b ∧ env = env' := by
  change (some (.ok (a, env)) : Option (Except Error (α × Env))) = _ ↔ _
  simp

@[simp] theorem yields_ofExcept {r : Except Error α} {a : α} {env env' : Env} :
    (ofExcept r).Yields env a env' ↔ r = .ok a ∧ env = env' := by
  change (some (r.map (·, env)) : Option (Except Error (α × Env))) = _ ↔ _
  cases r <;> simp [Except.map]

@[simp] theorem yields_get {a env env' : Env} :
    (get : Eval Env).Yields env a env' ↔ env = a ∧ env = env' := by
  change (some (.ok (env, env)) : Option (Except Error (Env × Env))) = _ ↔ _
  simp

@[simp] theorem yields_modify {f : Env → Env} {u : Unit} {env env' : Env} :
    (modify f : Eval Unit).Yields env u env' ↔ f env = env' := by
  change (some (.ok ((), f env)) : Option (Except Error (Unit × Env))) = _ ↔ _
  simp

@[simp] theorem not_yields_throw {e : Error} {a : α} {env env' : Env} :
    ¬ (throw e : Eval α).Yields env a env' := by
  change ¬ (some (.error e) : Option (Except Error (α × Env))) = _
  simp

/-! ## Names -/

/-- The value of a name: of the innermost index, or of the variable. -/
def valueOf (name : Bytes) : Eval Float := fun env =>
  ofExcept (match Assoc.find? env.scopes name with
    | some x => .ok x
    | none => env.vars.fetch name) env

/-- Gives a name a value, where it has one already or else among the variables. -/
def assign (name : Bytes) (x : Float) : Eval Unit := modify fun env =>
  if (Assoc.find? env.scopes name).isSome then { env with scopes := Assoc.put env.scopes name x }
  else { env with vars := env.vars.store name x }

/-! ## Sums -/

/-- One turn of a sum: the term is added, the index goes on by the step and the count goes down. -/
def sumTurn (index : Bytes) (step : Float) (body : Eval Float) (count total : Float) :
    Eval (Float × Float) := do
  let term ← body
  let total ← ofExcept (ArithOp.add.eval total term)
  let x ← valueOf index
  let x ← ofExcept (ArithOp.add.eval x step)
  assign index x
  let count ← ofExcept (ArithOp.sub.eval count 1)
  return (count, total)

/-- The turns of a sum until none is left. -/
def sumLoop (index : Bytes) (step : Float) (body : Eval Float) (count total : Float) (env : Env) :
    Option (Except Error (Float × Env)) :=
  if count ≤ 0 then some (.ok (total, env))
  else
    match sumTurn index step body count total env with
    | none => none
    | some (.error e) => some (.error e)
    | some (.ok ((count, total), env)) => by
      -- `apply`, unlike an application, puts no source position into the term.
      apply sumLoop
      · exact index
      · exact step
      · exact body
      · exact count
      · exact total
      · exact env
partial_fixpoint

/-- What holds when no term is left, and before a turn when it holds after it, holds of a loop that
    ends. -/
theorem sumLoop_induction {index : Bytes} {step : Float} {body : Eval Float}
    {P : Float → Float → Env → Float → Env → Prop}
    (stop : ∀ count total env, count ≤ 0 → P count total env total env)
    (turn : ∀ {count total env count' total' mid v env'}, ¬ count ≤ 0 →
      (sumTurn index step body count total).Yields env (count', total') mid →
      P count' total' mid v env' → P count total env v env')
    {count total v : Float} {env env' : Env}
    (h : sumLoop index step body count total env = some (.ok (v, env'))) :
    P count total env v env' := by
  refine sumLoop.partial_correctness index step body
    (fun count total env r => ∀ v env', r = .ok (v, env') → P count total env v env') ?_
    count total env _ h v env' rfl
  intro loop ih count total env r hr v env' hv
  subst hv
  split at hr
  · next hc =>
    obtain ⟨rfl, rfl⟩ : total = v ∧ env = env' := by simpa using hr
    exact stop count total env hc
  · next hc =>
    split at hr
    · exact absurd hr (by simp)
    · exact absurd hr (by simp)
    · next count' total' mid hturn => exact turn hc hturn (ih _ _ _ _ hr v env' rfl)

/-- The number of terms of a sum. -/
def termCount (first last step : Float) : Except Error Float := do
  let span ← ArithOp.sub.eval last first
  let steps ← ArithOp.div.eval span step
  let terms ← ArithOp.add.eval steps 1
  RealFn.integerPart.eval terms

/-- A sum, whose index is bound in a scope of its own. -/
def sum (index : Bytes) (first last step : Float) (body : Eval Float) : Eval Float := do
  let count ← ofExcept (termCount first last step)
  modify fun env => { env with scopes := (index, first) :: env.scopes }
  let total ← sumLoop index step body count 0
  modify fun env => { env with scopes := env.scopes.tail }
  return total

end Eval

/-! ## Operations -/

/-- The value of an operation on two numbers. -/
def BinaryOp.value (op : BinaryOp) (y x : Float) : Except Error Float :=
  match op with
  | add => ArithOp.add.eval y x
  | sub | equation => ArithOp.sub.eval y x
  | mul => ArithOp.mul.eval y x
  | div => ArithOp.div.eval y x
  | pow => ArithOp.pow.eval y x
  | eq => .ok (truth (Comparison.eq.holds y x))
  | ne => .ok (truth (Comparison.ne.holds y x))
  | lt => .ok (truth (Comparison.lt.holds y x))
  | le => .ok (truth (Comparison.le.holds y x))
  | gt => .ok (truth (Comparison.gt.holds y x))
  | ge => .ok (truth (Comparison.ge.holds y x))
  | and => .ok (truth (Connective.and.holds (y != 0) (x != 0)))
  | or => .ok (truth (Connective.or.holds (y != 0) (x != 0)))
  | xor => .ok (truth (Connective.xor.holds (y != 0) (x != 0)))

/-- The value of a sign in front of a number. -/
def UnaryOp.value (op : UnaryOp) (x : Float) : Except Error Float :=
  match op with
  | neg => RealFn.negate.eval x
  | pos => .ok x
  | not => .ok (truth (x == 0))

/-- The operation behind a function. -/
def Function.real : Function → RealFn
  | sin => .sin
  | cos => .cos
  | tan => .tan
  | asin => .asin
  | acos => .acos
  | atan => .atan
  | ln => .ln
  | log => .log
  | exp => .eToX
  | alog => .tenToX
  | sq => .square
  | sqrt => .sqrt
  | inv => .reciprocal
  | abs => .abs

/-- The value of a call: an integer part, a fraction, a sign, a remainder or pi. -/
def callValue (name : Bytes) (arguments : List Float) : Except Error Float :=
  match arguments with
  | [] => if name = utf8 "PI" then .ok (Float.ofBits 0x400921FB54442D18) else unknown
  | [x] =>
    if name = utf8 "IP" then RealFn.integerPart.eval x
    else if name = utf8 "FP" then RealFn.fractionPart.eval x
    else if name = utf8 "SIGN" then RealFn.sign.eval x
    else unknown
  | [y, x] => if name = utf8 "MOD" then ArithOp.mod.eval y x else unknown
  | _ => unknown
where
  /-- The error of a name that is not known. -/
  unknown : Except Error Float := .error (.labelNameNotFound name)

/-! ## Expressions -/

namespace Expr

mutual

/-- The value of an expression while the equation is being solved for `target`, which is empty when
    it is not. -/
def eval (target : Bytes) : Expr → Eval Float
  | literal _ value _ => pure value
  | var _ name | fetch _ name => Eval.valueOf name
  | solving _ name => pure (truth (!target.isEmpty && target == name))
  | group _ e | tagged _ _ e => e.eval target
  | unary _ op e => do
    let x ← e.eval target
    Eval.ofExcept (op.value x)
  | binary _ op l r => do
    let y ← l.eval target
    let x ← r.eval target
    Eval.ofExcept (op.value y x)
  | apply _ fn e => do
    let x ← e.eval target
    Eval.ofExcept (fn.real.eval x)
  | extremum _ greatest es => do
    match ← evalAll target es with
    | [] => throw .tooFewArguments
    | x :: rest => return extremumFrom greatest x rest
  | call _ name es => do
    let xs ← evalAll target es
    Eval.ofExcept (callValue name xs)
  | conditional _ condition yes no => do
    let x ← condition.eval target
    if x == 0 then no.eval target else yes.eval target
  | assign _ name e => do
    let x ← e.eval target
    Eval.assign name x
    return x
  | item _ name e _ => do
    let x ← e.eval target
    let env ← get
    Eval.ofExcept (env.vars.item name (indexOf x))
  | sigma _ index first last step body => do
    let last ← last.eval target
    let step ← step.eval target
    let first ← first.eval target
    Eval.sum index first last step (body.eval target)

/-- The values of several expressions, the first one first. -/
def evalAll (target : Bytes) : List Expr → Eval (List Float)
  | [] => pure []
  | e :: es => do
    let x ← e.eval target
    let xs ← evalAll target es
    return x :: xs

end

/-! ## What a tree asks of the machine -/

mutual

/-- The calls of an expression by name and number of arguments. -/
def calls : Expr → List (Bytes × Nat)
  | literal _ _ _ | var _ _ | fetch _ _ | solving _ _ => []
  | unary _ _ e | group _ e | apply _ _ e | assign _ _ e | item _ _ e _ | tagged _ _ e => e.calls
  | binary _ _ l r => l.calls ++ r.calls
  | extremum _ _ es => callsAll es
  | call _ name es => (name, es.length) :: callsAll es
  | conditional _ c y n => c.calls ++ y.calls ++ n.calls
  | sigma _ _ a b s e => a.calls ++ b.calls ++ s.calls ++ e.calls

/-- The calls of several expressions in turn. -/
def callsAll : List Expr → List (Bytes × Nat)
  | [] => []
  | e :: es => e.calls ++ callsAll es

end

mutual

/-- How deep sums stand in the bodies of sums. -/
def sumDepth : Expr → Nat
  | literal _ _ _ | var _ _ | fetch _ _ | solving _ _ => 0
  | unary _ _ e | group _ e | apply _ _ e | assign _ _ e | item _ _ e _ | tagged _ _ e =>
    e.sumDepth
  | binary _ _ l r => max l.sumDepth r.sumDepth
  | extremum _ _ es | call _ _ es => sumDepthAll es
  | conditional _ c y n => max c.sumDepth (max y.sumDepth n.sumDepth)
  | sigma _ _ a b s e => max (max a.sumDepth b.sumDepth) (max s.sumDepth (e.sumDepth + 1))

/-- The greatest depth in several expressions. -/
def sumDepthAll : List Expr → Nat
  | [] => 0
  | e :: es => max e.sumDepth (sumDepthAll es)

end

end Expr

end Keystroke
