import Keystroke.Error
import Keystroke.Proofs.Algebra.RoundTrip
import Keystroke.Proofs.Algebra.Solution

set_option autoImplicit false

/-! # When an equation can be solved for a variable

Solving works its way down from the top of an equation to the only place of the variable, and undoes
each node that it meets. It succeeds exactly if all of these can be undone, and then no operand gets
lost: what it gives has the variables of the equation without the one it was solved for
(`Expr.isolate_spec`). -/

namespace Keystroke

variable {p : Nat} {op : BinaryOp} {l r : Expr} {compat : Bool} {ctx : Context}

namespace Expr

/-- Whether the node is the name in front of an equation or its `=`. -/
def isFrame : Expr → Bool
  | tagged _ _ _ | binary _ .equation _ _ => true
  | _ => false

/-- Whether the node is a group, a sign, one of the five arithmetic operations, or a function other
    than `ABS`. -/
def isReversible : Expr → Bool
  | group _ _ | unary _ .neg _ | unary _ .pos _ => true
  | binary _ .add _ _ | binary _ .sub _ _ | binary _ .mul _ _ | binary _ .div _ _
  | binary _ .pow _ _ => true
  | apply _ fn _ => fn != .abs
  | _ => false

/-- All nodes above the places of the variable can be undone. -/
def Clear (name : Bytes) (e : Expr) : Prop :=
  ∀ path, e.FreeAt name path → ∀ s ∈ e.above path, s.1.isReversible = true

/-- All nodes above the places of the variable and below the top of the equation can be undone. -/
def ClearBelowTop (name : Bytes) (e : Expr) : Prop :=
  ∀ path, e.FreeAt name path →
    ∀ s ∈ (e.above path).dropWhile (·.1.isFrame), s.1.isReversible = true

/-! ## The way down -/

variable {name : Bytes} {e c : Expr} {k : Nat}

/-- The variable occurs in one part of the node only, and is not bound there. -/
structure OnlyIn (name : Bytes) (e : Expr) (k : Nat) (c : Expr) : Prop where
  part : e.parts[k]? = some c
  unbound : ¬ Binds name e k
  only : ∀ j d, e.parts[j]? = some d → d.occurrence name ≠ .absent → j = k

theorem OnlyIn.freeAt_iff (h : OnlyIn name e k c) {path : List Nat} :
    e.FreeAt name path ↔ ∃ rest, path = k :: rest ∧ c.FreeAt name rest := by
  cases path with
  | nil =>
    have hvar : ¬ e.FreeAt name [] := by
      intro hfree
      obtain ⟨p, rfl⟩ := freeAt_nil.1 hfree
      have hpart := h.part
      simp [parts] at hpart
    simp [hvar]
  | cons j path =>
    rw [freeAt_cons]
    constructor
    · rintro ⟨-, d, hd, hfree⟩
      obtain rfl := h.only j d hd (occurrence_ne_absent_iff.2 ⟨path, hfree⟩)
      obtain rfl := Option.some_inj.1 (h.part.symm.trans hd)
      exact ⟨path, rfl, hfree⟩
    · rintro ⟨rest, hpath, hfree⟩
      obtain ⟨rfl, rfl⟩ := List.cons.inj hpath
      exact ⟨h.unbound, c, h.part, hfree⟩

theorem OnlyIn.above_eq (h : OnlyIn name e k c) (path : List Nat) :
    e.above (k :: path) = (e, k) :: c.above path := by
  rw [above, h.part, Option.elim_some]

/-- A node that can be undone is not in the way. -/
theorem OnlyIn.clear_iff (h : OnlyIn name e k c) (hnode : e.isReversible = true) :
    e.Clear name ↔ c.Clear name := by
  constructor
  · intro hclear rest hrest s hs
    refine hclear (k :: rest) (h.freeAt_iff.2 ⟨rest, rfl, hrest⟩) s ?_
    rw [h.above_eq]
    exact List.mem_cons_of_mem _ hs
  · intro hclear path hfree s hs
    obtain ⟨rest, rfl, hrest⟩ := h.freeAt_iff.1 hfree
    rw [h.above_eq] at hs
    rcases List.mem_cons.1 hs with rfl | hs
    · exact hnode
    · exact hclear rest hrest s hs

/-- The name and the `=` at the top do not count. -/
theorem OnlyIn.clearBelowTop_iff (h : OnlyIn name e k c) (hframe : e.isFrame = true) :
    e.ClearBelowTop name ↔ c.ClearBelowTop name := by
  have hdrop (rest : List Nat) : (e.above (k :: rest)).dropWhile (·.1.isFrame) =
      (c.above rest).dropWhile (·.1.isFrame) := by
    rw [h.above_eq, List.dropWhile_cons_of_pos (by exact hframe)]
  constructor
  · intro hclear rest hrest
    rw [← hdrop]
    exact hclear (k :: rest) (h.freeAt_iff.2 ⟨rest, rfl, hrest⟩)
  · intro hclear path hfree
    obtain ⟨rest, rfl, hrest⟩ := h.freeAt_iff.1 hfree
    rw [hdrop]
    exact hclear rest hrest

theorem clearBelowTop_of_not_frame (h : e.isFrame = false) :
    e.ClearBelowTop name ↔ e.Clear name := by
  have hkeep (path : List Nat) : (e.above path).dropWhile (·.1.isFrame) = e.above path := by
    cases path with
    | nil => rfl
    | cons k path => rw [above, List.dropWhile_cons_of_neg (by simp [h])]
  simp only [ClearBelowTop, Clear, hkeep]

/-- A node that cannot be undone is in the way, unless it is the variable. -/
theorem not_clear (h : e.occurrence name ≠ .absent) (hvar : ∀ p, e ≠ var p name)
    (hnode : e.isReversible = false) : ¬ e.Clear name := by
  intro hclear
  obtain ⟨path, hfree⟩ := occurrence_ne_absent_iff.1 h
  cases path with
  | nil =>
    obtain ⟨p, rfl⟩ := freeAt_nil.1 hfree
    exact hvar p rfl
  | cons k path =>
    have hreversible := hclear _ hfree (e, k) List.mem_cons_self
    rw [hnode] at hreversible
    cases hreversible

theorem onlyIn_single (h : e.parts = [c]) (hbinds : ¬ Binds name e 0) : OnlyIn name e 0 c where
  part := by rw [h]; rfl
  unbound := hbinds
  only j d hd _ := by
    rw [h] at hd
    simpa using (List.getElem?_eq_some_iff.1 hd).1

theorem onlyIn_left (h : r.occurrence name = .absent) : OnlyIn name (binary p op l r) 0 l where
  part := rfl
  unbound := id
  only
    | 0, _, _, _ => rfl
    | 1, _, hd, hpresent => absurd (Option.some_inj.1 hd ▸ h) hpresent

theorem onlyIn_right (h : l.occurrence name = .absent) : OnlyIn name (binary p op l r) 1 r where
  part := rfl
  unbound := id
  only
    | 0, _, hd, hpresent => absurd (Option.some_inj.1 hd ▸ h) hpresent
    | 1, _, _, _ => rfl

/-! ## Undoing -/

theorem isSome_undoLeft (p q : Nat) (other side l r : Expr) (op : BinaryOp) :
    (undoLeft p other side op).isSome = (binary q op l r).isReversible := by
  cases op <;> rfl

theorem isSome_undoRight (p q : Nat) (other side l r : Expr) (op : BinaryOp) :
    (undoRight p other side op).isSome = (binary q op l r).isReversible := by
  cases op <;> rfl

/-- Undoing the nodes above the only place of a variable succeeds if the way there is clear. -/
theorem exists_undo_iff {side : Expr} (he : e.Fits compat .disjunction ctx)
    (hctx : ctx ≠ .condition) (hocc : e.occurrence name = .single) :
    (∃ r, undo name e side = .ok r) ↔ e.Clear name := by
  have hblocked {e : Expr} {ε : IsolationError} (hocc : e.occurrence name = .single)
      (hvar : ∀ p, e ≠ var p name) (hnode : e.isReversible = false) :
      (∃ r, (.error ε : Except IsolationError Expr) = .ok r) ↔ e.Clear name :=
    iff_of_false (by simp) (not_clear (by simp [hocc]) hvar hnode)
  -- the induction follows the way down, which ends at the variable or at a node that is in the way
  fun_induction undo name e side generalizing ctx with
  | case1 p side =>
    refine iff_of_true ⟨side, rfl⟩ fun path hfree => ?_
    obtain ⟨rfl, -⟩ := freeAt_var.1 hfree
    simp [above]
  | case2 p n side hn => simp [occurrence, hn] at hocc
  | case3 p e side ih =>
    have hinner : ctx.inner ≠ .condition := by cases ctx <;> simp_all [Context.inner]
    exact (ih he hinner hocc).trans ((onlyIn_single rfl id).clear_iff rfl).symm
  | case4 => exact he.elim
  | case5 p e side ih | case6 p e side ih =>
    exact (ih (he.of_sign (by decide)) hctx hocc).trans ((onlyIn_single rfl id).clear_iff rfl).symm
  | case7 p e side => exact hblocked hocc (by simp) rfl
  | case8 p op l e side hl side' hundo ih =>
    have hocc' : e.occurrence name = .single := by
      simpa [occurrence, hl, Occurrence.join] using hocc
    obtain ⟨-, hfits⟩ := he.numeric_operands (isArithmetic_of_undoRight hundo) hctx
    exact (ih (hfits.fits.mono Rank.sum_within_disjunction) (by decide) hocc').trans
      ((onlyIn_right hl).clear_iff (by rw [← isSome_undoRight, hundo]; rfl)).symm
  | case9 p op l e side hl hundo =>
    exact hblocked hocc (by simp) (by rw [← isSome_undoRight, hundo]; rfl)
  | case10 p op l e side hl side' hundo ih =>
    obtain ⟨hsingle, habsent⟩ | ⟨habsent, -⟩ := Occurrence.join_eq_single.1 hocc
    · obtain ⟨hfits, -⟩ := he.numeric_operands (isArithmetic_of_undoLeft hundo) hctx
      exact (ih (hfits.fits.mono Rank.sum_within_disjunction) (by decide) hsingle).trans
        ((onlyIn_left habsent).clear_iff (by rw [← isSome_undoLeft, hundo]; rfl)).symm
    · exact absurd habsent hl
  | case11 p op l e side hl hundo =>
    exact hblocked hocc (by simp) (by rw [← isSome_undoLeft, hundo]; rfl)
  | case12 p fn e side inverse hinverse ih =>
    have hnode : (apply p fn e).isReversible = true := by cases fn <;> first | rfl | cases hinverse
    exact (ih he.2 (by decide) hocc).trans ((onlyIn_single rfl id).clear_iff hnode).symm
  | case13 p fn e side hinverse =>
    refine hblocked hocc (by simp) ?_
    cases fn <;> first | rfl | cases hinverse
  | case14 e side hvar hgroup _ hpos hneg hnot hbinary happly =>
    refine hblocked hocc (fun p => hvar p name) ?_
    cases e with
    | group p e => exact (hgroup p e rfl).elim
    | unary p op e => cases op <;> simp_all
    | binary p op l r => exact (hbinary p op l r rfl).elim
    | apply p fn e => exact (happly p fn e rfl).elim
    | _ => rfl

/-! ## Equations -/

/-- How an equation with one place of the variable is solved: `side` is the one with the variable,
    the other one is what its nodes are undone on. -/
structure Rearranged (compat : Bool) (name : Bytes) (e side other : Expr) : Prop where
  isolate_eq : e.isolate name = undo name side other
  single : side.occurrence name = .single
  absent : other.occurrence name = .absent
  absent_iff : ∀ n, e.occurrence n = .absent ↔
    side.occurrence n = .absent ∧ other.occurrence n = .absent
  fits : side.Fits compat .disjunction .top
  clear_iff : e.ClearBelowTop name ↔ side.Clear name

theorem isFrame_of_fits_sum (h : e.Fits compat .sum ctx) : e.isFrame = false := by
  unfold isFrame
  split
  · exact h.elim
  · cases Rank.isArithmetic_of_within h.1 rfl
  · rfl

theorem occurrence_untagged (e : Expr) (name : Bytes) :
    e.untagged.occurrence name = e.occurrence name := by
  cases e <;> rfl

theorem clearBelowTop_untagged (e : Expr) (name : Bytes) :
    e.untagged.ClearBelowTop name ↔ e.ClearBelowTop name := by
  cases e with
  | tagged p n e => exact ((onlyIn_single rfl id).clearBelowTop_iff rfl).symm
  | _ => rfl

/-- The variable is on one of the sides, where neither the name nor the `=` are met again. -/
theorem exists_rearranged (he : e.untagged.Fits compat .disjunction .top)
    (hocc : e.occurrence name = .single) : ∃ side other, Rearranged compat name e side other := by
  have hisolate := isolate.eq_def name e
  simp only [hocc] at hisolate
  have hclear := e.clearBelowTop_untagged name
  have hsame := e.occurrence_untagged
  rw [← hsame] at hocc
  by_cases hequation : ∃ p l r, e.untagged = binary p .equation l r
  · obtain ⟨p, l, r, hu⟩ := hequation
    rw [hu] at he hocc hisolate hclear
    simp only [hu] at hsame
    obtain ⟨-, -, -, -, hleft, hright⟩ := he
    obtain ⟨hl, hr⟩ | ⟨hl, hr⟩ := Occurrence.join_eq_single.1 hocc
    · exact ⟨l, r, {
        isolate_eq := hisolate.trans (if_neg fun habsent => by cases hl.symm.trans habsent)
        single := hl
        absent := hr
        absent_iff := fun n => by rw [← hsame, occurrence, Occurrence.join_eq_absent]
        fits := hleft.mono Rank.sum_within_disjunction
        clear_iff := hclear.symm.trans (((onlyIn_left hr).clearBelowTop_iff rfl).trans
          (clearBelowTop_of_not_frame (isFrame_of_fits_sum hleft))) }⟩
    · exact ⟨r, l, {
        isolate_eq := hisolate.trans (if_pos hl)
        single := hr
        absent := hl
        absent_iff := fun n => by rw [← hsame, occurrence, Occurrence.join_eq_absent, and_comm]
        fits := hright.mono Rank.sum_within_disjunction
        clear_iff := hclear.symm.trans (((onlyIn_right hl).clearBelowTop_iff rfl).trans
          (clearBelowTop_of_not_frame (isFrame_of_fits_sum hright))) }⟩
  · have hframe : e.untagged.isFrame = false := by
      unfold isFrame
      split
      · next hu => exact (hu ▸ he : Fits compat .disjunction .top (tagged _ _ _)).elim
      · next hu => exact absurd ⟨_, _, _, hu⟩ hequation
      · rfl
    rw [sides_of_ne fun p l r hu => hequation ⟨p, l, r, hu⟩] at hisolate
    exact ⟨e.untagged, literal e.untagged.offset 0 [], {
      isolate_eq := by rw [hisolate, if_neg (by simp [hocc])]
      single := hocc
      absent := rfl
      absent_iff := fun n => by simp [hsame, occurrence]
      fits := he
      clear_iff := hclear.symm.trans (clearBelowTop_of_not_frame hframe) }⟩

/-- What the equation gives for the variable has the other variables of the equation. -/
theorem mem_vars_isolate (he : e.untagged.Fits compat .disjunction .top)
    (hocc : e.occurrence name = .single) (h : e.isolate name = .ok r) (n : Bytes) :
    n ∈ r.vars ↔ n ∈ e.vars ∧ n ≠ name := by
  obtain ⟨side, other, hr⟩ := exists_rearranged he hocc
  rw [hr.isolate_eq] at h
  rw [mem_vars_iff, mem_vars_iff, ne_eq, ne_eq, hr.absent_iff, undo_eq_absent_iff hr.single h]
  by_cases hn : n = name
  · simp [hn, hr.absent]
  · simp [hn]

/-- Which equations can be solved for a variable: exactly those in which it has one place, and only
    groups, signs, arithmetic and functions other than `ABS` above that place. The variables of the
    result are then the other ones of the equation; if not, the isolation has failed. -/
theorem isolate_spec {compat : Bool} {text : Bytes} (h : parse compat text = .ok e)
    (name : Bytes) :
    (e.occurrence name = .single ∧ e.ClearBelowTop name → ∃ r, e.isolate name = .ok r ∧
      ∀ n, n ∈ r.vars ↔ n ∈ e.vars ∧ n ≠ name) ∧
    (¬ (e.occurrence name = .single ∧ e.ClearBelowTop name) → ∃ ε, e.isolate name = .error ε ∧
      Cause.isolationFailed ∈ (Error.isolation ε).causes ∧
      utf8 "isolation failed: " <+: (Error.isolation ε).message) := by
  have he := (fitsEquation_of_parse h).untagged
  have hsolved : (∃ r, e.isolate name = .ok r) ↔
      e.occurrence name = .single ∧ e.ClearBelowTop name := by
    by_cases hocc : e.occurrence name = .single
    · obtain ⟨side, other, hr⟩ := exists_rearranged he hocc
      rw [hr.isolate_eq, hr.clear_iff, exists_undo_iff hr.fits (by decide) hr.single]
      simp [hocc]
    · refine iff_of_false ?_ fun hclear => hocc hclear.1
      rintro ⟨r, hr⟩
      unfold isolate at hr
      split at hr <;> simp_all
  constructor
  · intro hclear
    obtain ⟨r, hr⟩ := hsolved.2 hclear
    exact ⟨r, hr, mem_vars_isolate he hclear.1 hr⟩
  · intro hnot
    cases hisolate : e.isolate name with
    | ok r => exact absurd (hsolved.1 ⟨r, hisolate⟩) hnot
    | error ε => exact ⟨ε, rfl, by simp [Error.causes], List.prefix_append _ _⟩

/-- `Y:A=(X-1)^-2` can be solved for `X`, and `A=ABS(X)` cannot, though `X` occurs once in it. -/
theorem isolate_spec_inverse_square :
    (∃ e r, parse false (utf8 "Y:A=(X-1)^-2") = .ok e ∧ e.ClearBelowTop (utf8 "X") ∧
      e.isolate (utf8 "X") = .ok r ∧ ∀ n, n ∈ r.vars ↔ n ∈ e.vars ∧ n ≠ utf8 "X") ∧
    ∃ e ε, parse false (utf8 "A=ABS(X)") = .ok e ∧ e.occurrence (utf8 "X") = .single ∧
      ¬ e.ClearBelowTop (utf8 "X") ∧ e.isolate (utf8 "X") = .error ε ∧
      Cause.isolationFailed ∈ (Error.isolation ε).causes := by
  constructor
  · obtain ⟨e, he⟩ : ∃ e, parse false (utf8 "Y:A=(X-1)^-2") = .ok e := ⟨_, rfl⟩
    have hok : ∃ r, e.isolate (utf8 "X") = .ok r := by
      cases he
      exact ⟨_, rfl⟩
    obtain ⟨hsolved, hfailed⟩ := isolate_spec he (utf8 "X")
    have hclear : e.occurrence (utf8 "X") = .single ∧ e.ClearBelowTop (utf8 "X") := by
      by_contra hnot
      obtain ⟨ε, hε, -⟩ := hfailed hnot
      simp [hε] at hok
    obtain ⟨r, hr, hvars⟩ := hsolved hclear
    exact ⟨e, r, he, hclear.2, hr, hvars⟩
  · obtain ⟨e, he⟩ : ∃ e, parse false (utf8 "A=ABS(X)") = .ok e := ⟨_, rfl⟩
    have herror : e.occurrence (utf8 "X") = .single ∧ ∃ ε, e.isolate (utf8 "X") = .error ε := by
      cases he
      exact ⟨rfl, _, rfl⟩
    obtain ⟨hsolved, hfailed⟩ := isolate_spec he (utf8 "X")
    have hnot : ¬ (e.occurrence (utf8 "X") = .single ∧ e.ClearBelowTop (utf8 "X")) := by
      intro hclear
      obtain ⟨r, hr, -⟩ := hsolved hclear
      simp [hr] at herror
    obtain ⟨ε, hε, hcause, -⟩ := hfailed hnot
    exact ⟨e, ε, he, herror.1, fun hclear => hnot ⟨herror.1, hclear⟩, hε, hcause⟩

end Expr

end Keystroke
