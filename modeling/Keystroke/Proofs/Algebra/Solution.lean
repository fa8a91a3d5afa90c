import Mathlib.Analysis.SpecialFunctions.Log.Base
import Mathlib.Analysis.SpecialFunctions.Trigonometric.Arctan
import Keystroke.Proofs.Algebra.Leaves
import Keystroke.Proofs.Algebra.Shape

set_option autoImplicit false

/-! # Solutions in exact arithmetic

Solving an equation for a variable undoes the operations around it one by one. Over a field, with
powers and functions that may be any partial operations which the ones in the table of inverses
undo, the result is a solution wherever it and both sides have values. Where only rational
operations occur, it is the only one (`Expr.isolate_solves`). -/

namespace Keystroke

variable {p : Nat} {op : BinaryOp} {l r e other side side' : Expr}

/-! ## Arithmetic -/

/-- The quotient of two numbers; there is none by zero. -/
def quotient? {K : Type*} [Field K] [DecidableEq K] (a b : K) : Option K :=
  if b = 0 then none else some (a / b)

/-- What an expression means over a field: the numbers that literals stand for, and partial powers
    and functions. Each function undoes its inverse, a power undoes the root, and a power of a base
    undoes the quotient of logarithms, all of them wherever they are defined. -/
structure Arithmetic (K : Type*) [Field K] [DecidableEq K] where
  number : Float → K
  power? : K → K → Option K
  function? : Function → K → Option K
  number_zero : number 0 = 0
  number_one : number 1 = 1
  inv_eq (x : K) : function? .inv x = quotient? 1 x
  undoes {f g : Function} (h : f.inverse? = some g) {y z : K} :
    (function? g y).bind (function? f) = some z → z = y
  root {k y z : K} :
    (((quotient? 1 k).bind (power? y)).bind fun x => power? x k) = some z → z = y
  logarithm {b y z : K} :
    (((function? .log y).bind fun u => (function? .log b).bind (quotient? u)).bind (power? b))
      = some z → z = y

variable {K : Type*} [Field K] [DecidableEq K]

theorem quotient?_eq_some {a b c : K} : quotient? a b = some c ↔ b ≠ 0 ∧ a / b = c := by
  unfold quotient?
  split_ifs with h <;> simp [h]

namespace Arithmetic

variable (A : Arithmetic K)

/-- The value of an operator; comparisons, connectives and `=` have none. -/
def binary? : BinaryOp → K → K → Option K
  | .add, a, b => some (a + b)
  | .sub, a, b => some (a - b)
  | .mul, a, b => some (a * b)
  | .div, a, b => quotient? a b
  | .pow, a, b => A.power? a b
  | _, _, _ => none

/-- The value of an expression of literals, variables, signs, operators and functions of one
    number. -/
def value? (ρ : Bytes → K) : Expr → Option K
  | .literal _ x _ => some (A.number x)
  | .var _ name => some (ρ name)
  | .group _ e | .tagged _ _ e | .unary _ .pos e => value? ρ e
  | .unary _ .neg e => (value? ρ e).map (- ·)
  | .binary _ op l r => (value? ρ l).bind fun a => (value? ρ r).bind (A.binary? op a)
  | .apply _ fn e => (value? ρ e).bind (A.function? fn)
  | _ => none

variable {A} {ρ : Bytes → K} {name : Bytes}

@[simp] theorem value?_parenthesized (e : Expr) :
    A.value? ρ e.parenthesized = A.value? ρ e := by
  unfold Expr.parenthesized
  split <;> simp [value?]

theorem value?_binary {c : K} :
    A.value? ρ (.binary p op l r) = some c ↔
      ∃ a b, A.value? ρ l = some a ∧ A.value? ρ r = some b ∧ A.binary? op a b = some c := by
  simp [value?, Option.bind_eq_some_iff]

theorem value?_apply {fn : Function} {c : K} :
    A.value? ρ (.apply p fn e) = some c ↔
      ∃ a, A.value? ρ e = some a ∧ A.function? fn a = some c := by
  simp [value?, Option.bind_eq_some_iff]

/-- A variable that does not occur does not matter. -/
theorem value?_update (h : e.occurrence name = .absent) (x : K) :
    A.value? (Function.update ρ name x) e = A.value? ρ e := by
  fun_induction value? A ρ e with
  | case1 => rfl
  | case2 p n =>
    have hne : n ≠ name := by simpa [Expr.occurrence] using h
    simp [value?, Function.update_of_ne hne]
  | case3 _ e ih | case4 _ _ e ih | case5 _ e ih | case6 _ e ih | case8 _ _ e ih =>
    simp [value?, ih h]
  | case7 p op l r ihl ihr =>
    simp only [Expr.occurrence, Occurrence.join_eq_absent] at h
    simp only [value?, ihl h.1, ihr h.2]
  | case9 e =>
    cases e <;> first | rfl | simp_all [value?]

/-! ## Undoing operations -/

theorem value?_operation {c : K}
    (h : A.value? ρ (.binary p op l.parenthesized r.parenthesized) = some c) :
    ∃ a b, A.value? ρ l = some a ∧ A.value? ρ r = some b ∧ A.binary? op a b = some c := by
  simpa [value?_binary] using h

/-- Undoing an operation on its left operand gives what the operation was equal to. -/
theorem value?_of_undoLeft {a b c : K} (h : Expr.undoLeft p other side op = some side')
    (hother : A.value? ρ other = some b) (hside : A.value? ρ side' = some a)
    (hop : A.binary? op a b = some c) : A.value? ρ side = some c := by
  cases op <;> cases h
  case pow =>
    obtain ⟨s, q, hs, hq, hpower⟩ := value?_operation hside
    obtain ⟨one, b', hone, hb', hquotient⟩ := value?_binary.1 hq
    rw [value?_parenthesized, hother, Option.some_inj] at hb'
    obtain rfl : A.number 1 = one := Option.some_inj.1 hone
    rw [A.number_one, ← hb'] at hquotient
    rw [hs, A.root (z := c)]
    simp only [binary?] at hquotient hpower hop
    rw [hquotient, Option.bind_some, hpower, Option.bind_some, hop]
  all_goals
    obtain ⟨s, b', hs, hb', hvalue⟩ := value?_operation hside
    obtain rfl : b = b' := Option.some_inj.1 (hother.symm.trans hb')
    rw [hs, Option.some_inj]
    simp only [binary?, quotient?_eq_some, Option.some_inj] at hvalue hop
  case add => rw [← hop, ← hvalue, sub_add_cancel]
  case sub => rw [← hop, ← hvalue, add_sub_cancel_right]
  case mul => rw [← hop, ← hvalue.2, div_mul_cancel₀ s hvalue.1]
  case div => rw [← hop.2, ← hvalue, mul_div_cancel_right₀ s hop.1]

/-- Undoing an operation on its right operand gives what the operation was equal to. -/
theorem value?_of_undoRight {a b c : K} (h : Expr.undoRight p other side op = some side')
    (hother : A.value? ρ other = some a) (hside : A.value? ρ side' = some b)
    (hop : A.binary? op a b = some c) : A.value? ρ side = some c := by
  cases op <;> cases h
  case pow =>
    obtain ⟨u, w, hu, hw, hquotient⟩ := value?_operation hside
    obtain ⟨s, hs, hlog⟩ := value?_apply.1 hu
    obtain ⟨a', ha', hlog'⟩ := value?_apply.1 hw
    obtain rfl : a = a' := Option.some_inj.1 (hother.symm.trans ha')
    rw [hs, A.logarithm (b := a) (z := c)]
    simp only [binary?] at hquotient hop
    rw [hlog, Option.bind_some, hlog', Option.bind_some, hquotient, Option.bind_some, hop]
  case sub =>
    obtain ⟨a', s, ha', hs, hvalue⟩ := value?_operation hside
    obtain rfl : a = a' := Option.some_inj.1 (hother.symm.trans ha')
    simp only [binary?, Option.some_inj] at hvalue hop
    rw [hs, ← hop, ← hvalue, sub_sub_cancel]
  case div =>
    obtain ⟨a', s, ha', hs, hvalue⟩ := value?_operation hside
    obtain rfl : a = a' := Option.some_inj.1 (hother.symm.trans ha')
    simp only [binary?, quotient?_eq_some] at hvalue hop
    have ha : a ≠ 0 := by
      rintro rfl
      exact hop.1 (by rw [← hvalue.2, zero_div])
    rw [hs, ← hop.2, ← hvalue.2, div_div_cancel₀ ha]
  all_goals
    obtain ⟨s, a', hs, ha', hvalue⟩ := value?_operation hside
    obtain rfl : a = a' := Option.some_inj.1 (hother.symm.trans ha')
    rw [hs, Option.some_inj]
    simp only [binary?, quotient?_eq_some, Option.some_inj] at hvalue hop
  case add => rw [← hop, ← hvalue, add_sub_cancel]
  case mul => rw [← hop, ← hvalue.2, mul_div_cancel₀ s hvalue.1]

/-- The side that the operations were undone on has the value of the expression around the
    variable, once this is set to the value of the result. -/
theorem value?_of_undo {v a : K} (hocc : e.occurrence name = .single) (h : e.undo name side = .ok r)
    (hr : A.value? ρ r = some v) (he : A.value? (Function.update ρ name v) e = some a) :
    A.value? ρ side = some a := by
  fun_induction Expr.undo name e side generalizing a with
  | case1 p side =>
    obtain rfl := Except.ok.inj h
    rw [hr, ← he]
    simp [value?]
  | case3 _ e side ih | case4 _ _ e side ih | case5 _ e side ih => exact ih hocc h he
  | case6 p e side ih =>
    obtain ⟨b, hb, rfl⟩ := Option.map_eq_some_iff.1 he
    obtain ⟨s, hs, hneg⟩ := Option.map_eq_some_iff.1 (ih hocc h hb)
    rw [value?_parenthesized] at hs
    rw [hs, ← hneg, neg_neg]
  | case8 p op l e side hl side' hundo ih =>
    obtain ⟨b, c, hb, hc, hop⟩ := value?_binary.1 he
    rw [value?_update hl] at hb
    have hocc' : e.occurrence name = .single := by
      simpa [Expr.occurrence, hl, Occurrence.join] using hocc
    exact value?_of_undoRight hundo hb (ih hocc' h hc) hop
  | case10 p op l e side hl side' hundo ih =>
    obtain ⟨b, c, hb, hc, hop⟩ := value?_binary.1 he
    obtain ⟨hsingle, habsent⟩ | ⟨habsent, -⟩ := Occurrence.join_eq_single.1 hocc
    · rw [value?_update habsent] at hc
      exact value?_of_undoLeft hundo hc (ih hsingle h hb) hop
    · exact absurd habsent hl
  | case12 p fn e side inverse hinverse ih =>
    obtain ⟨b, hb, hfn⟩ := value?_apply.1 he
    obtain ⟨s, hs, hinv⟩ := value?_apply.1 (ih hocc h hb)
    rw [hs, A.undoes hinverse (z := a)]
    rw [hinv, Option.bind_some, hfn]
  | case2 | case7 | case9 | case11 | case13 | case14 => cases h

end Arithmetic

/-! ## Rational equations -/

/-- Whether the operator is one of the four operations of a field. -/
def BinaryOp.isRational : BinaryOp → Bool
  | add | sub | mul | div => true
  | _ => false

/-- Whether the expression has only literals, variables, signs, the four operations of a field and
    `INV`. -/
def Expr.isRational : Expr → Bool
  | literal _ _ _ | var _ _ => true
  | group _ e | tagged _ _ e | unary _ .pos e | unary _ .neg e | apply _ .inv e => e.isRational
  | binary _ op l r => op.isRational && l.isRational && r.isRational
  | _ => false

namespace Arithmetic

variable {A : Arithmetic K} {ρ : Bytes → K} {name : Bytes}

/-- An operation of the field has the value undone for one left operand only. -/
theorem eq_of_undoLeft {v : K} (hop : op.isRational = true)
    (h : Expr.undoLeft p other side op = some side') (hside : A.value? ρ side' = some v) :
    ∃ s b, A.value? ρ side = some s ∧ A.value? ρ other = some b ∧
      ∀ a, A.binary? op a b = some s → a = v := by
  cases op <;> cases h <;> cases hop
  all_goals
    obtain ⟨s, b, hs, hb, hvalue⟩ := value?_operation hside
    refine ⟨s, b, hs, hb, ?_⟩
    intro a ha
    simp only [binary?, quotient?_eq_some, Option.some_inj] at hvalue ha
  case add => rw [← hvalue, ← ha, add_sub_cancel_right]
  case sub => rw [← hvalue, ← ha, sub_add_cancel]
  case mul => rw [← hvalue.2, ← ha, mul_div_cancel_right₀ a hvalue.1]
  case div => rw [← hvalue, ← ha.2, div_mul_cancel₀ a ha.1]

/-- An operation of the field has the value undone for one right operand only. -/
theorem eq_of_undoRight {v : K} (hop : op.isRational = true)
    (h : Expr.undoRight p other side op = some side') (hside : A.value? ρ side' = some v) :
    ∃ s a, A.value? ρ side = some s ∧ A.value? ρ other = some a ∧
      ∀ b, A.binary? op a b = some s → b = v := by
  cases op <;> cases h <;> cases hop
  case sub =>
    obtain ⟨a, s, ha, hs, hvalue⟩ := value?_operation hside
    refine ⟨s, a, hs, ha, ?_⟩
    intro b hb
    simp only [binary?, Option.some_inj] at hvalue hb
    rw [← hvalue, ← hb, sub_sub_cancel]
  case div =>
    obtain ⟨a, s, ha, hs, hvalue⟩ := value?_operation hside
    refine ⟨s, a, hs, ha, ?_⟩
    intro b hb
    simp only [binary?, quotient?_eq_some] at hvalue hb
    have ha : a ≠ 0 := by
      rintro rfl
      exact hvalue.1 (by rw [← hb.2, zero_div])
    rw [← hvalue.2, ← hb.2, div_div_cancel₀ ha]
  all_goals
    obtain ⟨s, a, hs, ha, hvalue⟩ := value?_operation hside
    refine ⟨s, a, hs, ha, ?_⟩
    intro b hb
    simp only [binary?, quotient?_eq_some, Option.some_inj] at hvalue hb
  case add => rw [← hvalue, ← hb, add_sub_cancel_left]
  case mul => rw [← hvalue.2, ← hb, mul_div_cancel_left₀ b hvalue.1]

/-- In a rational expression, the value of the side that the operations were undone on is that of
    the expression for one value of the variable only, the value of the result. -/
theorem eq_of_undo {v : K} (hrational : e.isRational = true) (hocc : e.occurrence name = .single)
    (h : e.undo name side = .ok r) (hr : A.value? ρ r = some v) :
    ∃ s, A.value? ρ side = some s ∧
      ∀ x, A.value? (Function.update ρ name x) e = some s → x = v := by
  fun_induction Expr.undo name e side with
  | case1 p side =>
    obtain rfl := Except.ok.inj h
    refine ⟨v, hr, ?_⟩
    simp [value?]
  | case3 _ e side ih | case4 _ _ e side ih | case5 _ e side ih => exact ih hrational hocc h
  | case6 p e side ih =>
    obtain ⟨t, ht, hunique⟩ := ih hrational hocc h
    obtain ⟨s, hs, rfl⟩ := Option.map_eq_some_iff.1 ht
    rw [value?_parenthesized] at hs
    refine ⟨s, hs, ?_⟩
    intro x hx
    obtain ⟨b, hb, rfl⟩ := Option.map_eq_some_iff.1 hx
    exact hunique x (by rw [hb, neg_neg])
  | case8 p op l e side hl side' hundo ih =>
    simp only [Expr.isRational, Bool.and_eq_true] at hrational
    have hocc' : e.occurrence name = .single := by
      simpa [Expr.occurrence, hl, Occurrence.join] using hocc
    obtain ⟨t, ht, hunique⟩ := ih hrational.2 hocc' h
    obtain ⟨s, a, hs, ha, hright⟩ := eq_of_undoRight hrational.1.1 hundo ht
    refine ⟨s, hs, ?_⟩
    intro x hx
    obtain ⟨a', b, ha', hb, hop⟩ := value?_binary.1 hx
    rw [value?_update hl, ha, Option.some_inj] at ha'
    subst ha'
    exact hunique x (hright b hop ▸ hb)
  | case10 p op l e side hl side' hundo ih =>
    simp only [Expr.isRational, Bool.and_eq_true] at hrational
    obtain ⟨hsingle, habsent⟩ | ⟨habsent, -⟩ := Occurrence.join_eq_single.1 hocc
    · obtain ⟨t, ht, hunique⟩ := ih hrational.1.2 hsingle h
      obtain ⟨s, b, hs, hb, hleft⟩ := eq_of_undoLeft hrational.1.1 hundo ht
      refine ⟨s, hs, ?_⟩
      intro x hx
      obtain ⟨a, b', ha, hb', hop⟩ := value?_binary.1 hx
      rw [value?_update habsent, hb, Option.some_inj] at hb'
      subst hb'
      exact hunique x (hleft a hop ▸ ha)
    · exact absurd habsent hl
  | case12 p fn e side inverse hinverse ih =>
    cases fn with
    | inv =>
      cases hinverse
      obtain ⟨t, ht, hunique⟩ := ih hrational hocc h
      obtain ⟨s, hs, hinv⟩ := value?_apply.1 ht
      refine ⟨s, hs, ?_⟩
      intro x hx
      obtain ⟨b, hb, hfn⟩ := value?_apply.1 hx
      rw [A.inv_eq, quotient?_eq_some] at hinv hfn
      refine hunique x ?_
      rw [hb, ← hinv.2, ← hfn.2, one_div_one_div]
    | _ => cases hrational
  | case2 | case7 | case9 | case11 | case13 | case14 => cases h

end Arithmetic

/-! ## Equations -/

namespace Expr

variable {name : Bytes}

@[simp] theorem occurrence_parenthesized (e : Expr) :
    e.parenthesized.occurrence name = e.occurrence name := by
  unfold parenthesized
  split <;> simp [occurrence]

theorem operation_eq_absent_iff :
    (binary p op l.parenthesized r.parenthesized).occurrence name = .absent ↔
      l.occurrence name = .absent ∧ r.occurrence name = .absent := by
  simp [occurrence, Occurrence.join_eq_absent]

theorem undoLeft_eq_absent_iff (h : undoLeft p other side op = some side') :
    side'.occurrence name = .absent ↔
      other.occurrence name = .absent ∧ side.occurrence name = .absent := by
  cases op <;> cases h
  case pow =>
    refine operation_eq_absent_iff.trans ?_
    simp [occurrence, and_comm]
  all_goals exact operation_eq_absent_iff.trans and_comm

theorem undoRight_eq_absent_iff (h : undoRight p other side op = some side') :
    side'.occurrence name = .absent ↔
      other.occurrence name = .absent ∧ side.occurrence name = .absent := by
  cases op <;> cases h
  case sub | div => exact operation_eq_absent_iff
  all_goals exact operation_eq_absent_iff.trans and_comm

/-- What an equation gives for a variable has the other variables of both sides. -/
theorem undo_eq_absent_iff {n : Bytes} (hocc : e.occurrence name = .single)
    (h : e.undo name side = .ok r) : r.occurrence n = .absent ↔
      (n = name ∨ e.occurrence n = .absent) ∧ side.occurrence n = .absent := by
  fun_induction undo name e side with
  | case1 p side =>
    obtain rfl := Except.ok.inj h
    simp [occurrence, eq_comm, em]
  | case3 _ e side ih | case4 _ _ e side ih | case5 _ e side ih => exact ih hocc h
  | case6 p e side ih => simpa [occurrence] using ih hocc h
  | case8 p op l e side hl side' hundo ih =>
    have hocc' : e.occurrence name = .single := by
      simpa [occurrence, hl, Occurrence.join] using hocc
    rw [ih hocc' h, undoRight_eq_absent_iff hundo, occurrence, Occurrence.join_eq_absent]
    by_cases hn : n = name
    · simp [hn, hl]
    · simp [hn, and_assoc, and_left_comm]
  | case10 p op l e side hl side' hundo ih =>
    obtain ⟨hsingle, habsent⟩ | ⟨habsent, -⟩ := Occurrence.join_eq_single.1 hocc
    · rw [ih hsingle h, undoLeft_eq_absent_iff hundo, occurrence, Occurrence.join_eq_absent]
      by_cases hn : n = name
      · simp [hn, habsent]
      · simp [hn, and_assoc]
    · exact absurd habsent hl
  | case12 p fn e side inverse hinverse ih => exact ih hocc h
  | case2 | case7 | case9 | case11 | case13 | case14 => cases h

open Arithmetic Occurrence

theorem undo_solves {A : Arithmetic K} {ρ : Bytes → K} (hocc : e.occurrence name = .single)
    (hside : side.occurrence name = .absent) (h : e.undo name side = .ok r) {v : K}
    (hr : A.value? ρ r = some v) :
    (∀ x, A.value? (Function.update ρ name x) r = some v) ∧
    (∀ a b, A.value? (Function.update ρ name v) e = some a →
      A.value? (Function.update ρ name v) side = some b → a = b) ∧
    (e.isRational = true → ∀ x a, A.value? (Function.update ρ name x) e = some a →
      A.value? (Function.update ρ name x) side = some a → x = v) := by
  refine ⟨?_, ?_, ?_⟩
  · intro x
    rw [value?_update ((undo_eq_absent_iff hocc h).2 ⟨.inl rfl, hside⟩), hr]
  · intro a b ha hb
    rw [value?_update hside, value?_of_undo hocc h hr ha] at hb
    exact Option.some_inj.1 hb
  · intro hrational x a ha hb
    obtain ⟨s, hs, hunique⟩ := eq_of_undo hrational hocc h hr
    rw [value?_update hside, hs] at hb
    exact hunique x (ha.trans hb.symm)

theorem occurrence_sides (name : Bytes) (e : Expr) :
    (e.untagged.sides.1.occurrence name).join (e.untagged.sides.2.occurrence name) =
      e.occurrence name := by
  have huntagged : e.untagged.occurrence name = e.occurrence name := by cases e <;> rfl
  rw [← huntagged]
  unfold sides
  split
  · next hequation =>
    rw [hequation]
    rfl
  · exact join_absent _

/-- Solving an equation for a variable gives a solution. The variable does not matter for the
    result, and where the result has a value, setting the variable to it makes the two sides equal,
    if they have values then. In a rational equation no other value does. -/
theorem isolate_solves (A : Arithmetic K) (ρ : Bytes → K) {e r : Expr}
    (h : e.isolate name = .ok r) {v : K} (hr : A.value? ρ r = some v) :
    (∀ x, A.value? (Function.update ρ name x) r = some v) ∧
    (∀ a b, A.value? (Function.update ρ name v) e.untagged.sides.1 = some a →
      A.value? (Function.update ρ name v) e.untagged.sides.2 = some b → a = b) ∧
    (e.untagged.sides.1.isRational = true → e.untagged.sides.2.isRational = true →
      ∀ x a, A.value? (Function.update ρ name x) e.untagged.sides.1 = some a →
        A.value? (Function.update ρ name x) e.untagged.sides.2 = some a → x = v) := by
  have hsides := e.occurrence_sides name
  unfold isolate at h
  split at h
  · cases h
  · cases h
  · next hsingle =>
    rw [hsingle, join_eq_single] at hsides
    dsimp only at h
    split at h
    · next habsent =>
      obtain ⟨hl, -⟩ | ⟨hl, hs⟩ := hsides
      · simp [hl] at habsent
      · obtain ⟨hname, hsound, hunique⟩ := undo_solves hs hl h hr
        exact ⟨hname, fun a b ha hb => (hsound b a hb ha).symm,
          fun _ hrational x a ha hb => hunique hrational x a hb ha⟩
    · next hpresent =>
      obtain ⟨hl, hs⟩ | ⟨hl, -⟩ := hsides
      · obtain ⟨hname, hsound, hunique⟩ := undo_solves hl hs h hr
        exact ⟨hname, hsound, fun hrational _ => hunique hrational⟩
      · exact absurd hl hpresent

end Expr

/-! ## Real arithmetic

The laws hold for the real functions on their principal ranges. -/

/-- The real number that a binary64 pattern stands for; infinities and "not a number" count as
    zero. -/
noncomputable def Binary64.toReal (bits : UInt64) : ℝ :=
  match value bits with
  | .finite negative mantissa exponent => (if negative then -1 else 1) * (mantissa * 2 ^ exponent)
  | _ => 0

/-- A function on part of the real numbers. -/
noncomputable def realOn (s : Set ℝ) (f : ℝ → ℝ) (x : ℝ) : Option ℝ :=
  open Classical in if x ∈ s then some (f x) else none

theorem realOn_eq_some {s : Set ℝ} {f : ℝ → ℝ} {x y : ℝ} :
    realOn s f x = some y ↔ x ∈ s ∧ f x = y := by
  unfold realOn
  split_ifs with h <;> simp [h]

open Real in
/-- The functions of one real number, each where the table of inverses can undo it. -/
noncomputable def realFunction? : Function → ℝ → Option ℝ
  | .sin => realOn (Set.Icc (-(π / 2)) (π / 2)) sin
  | .asin => realOn (Set.Icc (-1) 1) arcsin
  | .cos => realOn (Set.Icc 0 π) cos
  | .acos => realOn (Set.Icc (-1) 1) arccos
  | .tan => realOn (Set.Ioo (-(π / 2)) (π / 2)) tan
  | .atan => realOn Set.univ arctan
  | .ln => realOn (Set.Ioi 0) log
  | .exp => realOn Set.univ exp
  | .log => realOn (Set.Ioi 0) (logb 10)
  | .alog => realOn Set.univ (10 ^ ·)
  | .sq => realOn (Set.Ici 0) (· ^ 2)
  | .sqrt => realOn (Set.Ici 0) sqrt
  | .inv => quotient? 1
  | .abs => realOn Set.univ (|·|)

theorem realFunction?_undoes {f g : Function} (h : f.inverse? = some g) {x y z : ℝ}
    (hg : realFunction? g y = some x) (hf : realFunction? f x = some z) : z = y := by
  cases f <;> cases h <;>
    simp only [realFunction?, realOn_eq_some, quotient?_eq_some, Set.mem_Icc, Set.mem_Ioo,
      Set.mem_Ioi, Set.mem_Ici, Set.mem_univ, true_and] at hg hf
  case sin => rw [← hf.2, ← hg.2, Real.sin_arcsin hg.1.1 hg.1.2]
  case asin => rw [← hf.2, ← hg.2, Real.arcsin_sin hg.1.1 hg.1.2]
  case cos => rw [← hf.2, ← hg.2, Real.cos_arccos hg.1.1 hg.1.2]
  case acos => rw [← hf.2, ← hg.2, Real.arccos_cos hg.1.1 hg.1.2]
  case tan => rw [← hf.2, ← hg, Real.tan_arctan]
  case atan => rw [← hf, ← hg.2, Real.arctan_tan hg.1.1 hg.1.2]
  case ln => rw [← hf.2, ← hg, Real.log_exp]
  case exp => rw [← hf, ← hg.2, Real.exp_log hg.1]
  case log => rw [← hf.2, ← hg, Real.logb_rpow (by norm_num) (by norm_num)]
  case alog => rw [← hf, ← hg.2, Real.rpow_logb (by norm_num) (by norm_num) hg.1]
  case sq => rw [← hf.2, ← hg.2, Real.sq_sqrt hg.1]
  case sqrt => rw [← hf.2, ← hg.2, Real.sqrt_sq hg.1]
  case inv => rw [← hf.2, ← hg.2, one_div_one_div]

/-- Real arithmetic on principal ranges; the base of a power is positive. -/
noncomputable def realArithmetic : Arithmetic ℝ where
  number x := Binary64.toReal x.toBits
  power? x k := realOn (Set.Ioi 0) (· ^ k) x
  function? := realFunction?
  number_zero := by
    have hvalue : Binary64.value (Float.toBits 0) = .finite false 0 (-1074) := by decide
    simp [Binary64.toReal, hvalue]
  number_one := by
    have hvalue : Binary64.value (Float.toBits 1) = .finite false (2 ^ 52) (-52) := by decide
    simp only [Binary64.toReal, hvalue]
    norm_num
  inv_eq _ := rfl
  undoes h y z hz := by
    obtain ⟨x, hg, hf⟩ := Option.bind_eq_some_iff.1 hz
    exact realFunction?_undoes h hg hf
  root {k y z} hz := by
    obtain ⟨x, hx, hpower⟩ := Option.bind_eq_some_iff.1 hz
    obtain ⟨q, hq, hroot⟩ := Option.bind_eq_some_iff.1 hx
    simp only [realOn_eq_some, quotient?_eq_some, Set.mem_Ioi] at hpower hroot hq
    obtain ⟨hk, rfl⟩ := hq
    rw [← hpower.2, ← hroot.2, ← Real.rpow_mul hroot.1.le, one_div_mul_cancel hk, Real.rpow_one]
  logarithm {b y z} hz := by
    obtain ⟨q, hq, hpower⟩ := Option.bind_eq_some_iff.1 hz
    obtain ⟨u, hu, hrest⟩ := Option.bind_eq_some_iff.1 hq
    obtain ⟨w, hw, hquotient⟩ := Option.bind_eq_some_iff.1 hrest
    simp only [realFunction?, realOn_eq_some, Set.mem_Ioi] at hpower hu hw
    obtain ⟨hne, rfl⟩ := quotient?_eq_some.1 hquotient
    obtain ⟨hb, rfl⟩ := hw
    obtain ⟨hy, rfl⟩ := hu
    have hbase : b ≠ 1 := by
      rintro rfl
      simp at hne
    have hten : Real.log 10 ≠ 0 := Real.log_ne_zero_of_pos_of_ne_one (by norm_num) (by norm_num)
    have hlog : Real.logb 10 y / Real.logb 10 b = Real.logb b y :=
      div_div_div_cancel_right₀ hten _ _
    rw [← hpower.2, hlog, Real.rpow_logb hb hbase hy]

namespace Expr

open Arithmetic

/-- `LN(X)^B=A` is solved for `X`, with 4 for `A` and 2 for `B`. -/
theorem isolate_solves_logarithm :
    ∃ e r, parse false (utf8 "LN(X)^B=A") = .ok e ∧ e.isolate (utf8 "X") = .ok r ∧
      ∃ (ρ : Bytes → ℝ) (v a b : ℝ), realArithmetic.value? ρ r = some v ∧
        realArithmetic.value? (Function.update ρ (utf8 "X") v) e.untagged.sides.1 = some a ∧
        realArithmetic.value? (Function.update ρ (utf8 "X") v) e.untagged.sides.2 = some b ∧
        a = b := by
  let x := var 3 (utf8 "X")
  let k := var 6 (utf8 "B")
  let y := var 8 (utf8 "A")
  let e := binary 7 .equation (binary 5 .pow (apply 0 .ln x) k) y
  let r := apply 0 .exp (binary 5 .pow y (group 5 (binary 5 .div (literal 5 1 []) k)))
  let ρ : Bytes → ℝ := fun name => if name = utf8 "A" then 4 else 2
  have hA : ρ (utf8 "A") = 4 := if_pos rfl
  have hB : ρ (utf8 "B") = 2 := if_neg (by decide)
  have hpower (a k : ℝ) (ha : 0 < a) : realArithmetic.binary? .pow a k = some (a ^ k) :=
    (realOn_eq_some (f := (· ^ k))).2 ⟨ha, rfl⟩
  have hroot : realArithmetic.value? ρ (group 5 (binary 5 .div (literal 5 1 []) k)) =
      some (1 / 2) := by
    simp [value?, binary?, quotient?, k, hB, realArithmetic.number_one]
  have hv : realArithmetic.value? ρ r = some (Real.exp (4 ^ (1 / 2 : ℝ))) :=
    value?_apply.2 ⟨_, value?_binary.2 ⟨4, _, congrArg some hA, hroot, hpower _ _ (by norm_num)⟩,
      realOn_eq_some.2 ⟨trivial, rfl⟩⟩
  have hln : realArithmetic.value? (Function.update ρ (utf8 "X") (Real.exp (4 ^ (1 / 2 : ℝ))))
      (apply 0 .ln x) = some (4 ^ (1 / 2 : ℝ)) := by
    refine value?_apply.2 ⟨_, congrArg some (Function.update_self ..), realOn_eq_some.2 ?_⟩
    exact ⟨Real.exp_pos _, Real.log_exp _⟩
  have hleft := (value?_binary (p := 5) (r := k)).2
    ⟨_, _, hln, rfl, hpower _ _ (by positivity)⟩
  refine ⟨e, r, rfl, rfl, ρ, _, _, _, hv, hleft, rfl, ?_⟩
  exact (isolate_solves realArithmetic ρ (e := e) rfl hv).2.1 _ _ hleft rfl

end Expr

end Keystroke
