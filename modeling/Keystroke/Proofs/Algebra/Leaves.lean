import Mathlib.Data.List.Basic
import Keystroke.Algebra.Occurrence

set_option autoImplicit false

/-! # Free variables by their places

A place in an expression is a path, the numbers of the parts on the way down to it. A variable
occurs free at a place if the way there does not lead into the body of a sum with its name as the
index. How a variable occurs, and which variables an expression has, is told by these places alone
(`Expr.occurrence_counts_places`). -/

namespace Keystroke

variable {a b : Occurrence} {as : List Occurrence} {n : Bytes} {bound : List Bytes}

/-! ## Counting -/

namespace Occurrence

@[simp] theorem absent_join (a : Occurrence) : absent.join a = a := by cases a <;> rfl

@[simp] theorem join_absent (a : Occurrence) : a.join absent = a := by cases a <;> rfl

theorem join_assoc (a b c : Occurrence) : (a.join b).join c = a.join (b.join c) := by
  cases a <;> cases b <;> cases c <;> rfl

theorem join_eq_absent : a.join b = .absent ↔ a = .absent ∧ b = .absent := by
  cases a <;> cases b <;> simp [join]

theorem join_eq_single :
    a.join b = .single ↔ a = .single ∧ b = .absent ∨ a = .absent ∧ b = .single := by
  cases a <;> cases b <;> simp [join]

/-- How a variable occurs in several parts together. -/
def joinAll : List Occurrence → Occurrence
  | [] => absent
  | a :: rest => a.join (joinAll rest)

theorem joinAll_eq_absent : joinAll as = absent ↔ ∀ a ∈ as, a = absent := by
  induction as with
  | nil => simp [joinAll]
  | cons a as ih => rw [joinAll, List.forall_mem_cons, join_eq_absent, ih]

/-- A variable occurs once if it does so in one of the parts and is absent from the others. -/
theorem joinAll_eq_single :
    joinAll as = single ↔
      ∃ k : Nat, as[k]? = some single ∧ ∀ (j : Nat) a, as[j]? = some a → j ≠ k → a = absent := by
  induction as with
  | nil => simp [joinAll]
  | cons a as ih =>
    rw [joinAll, join_eq_single, ih, joinAll_eq_absent]
    constructor
    · rintro (⟨rfl, habsent⟩ | ⟨rfl, k, hk, hothers⟩)
      · refine ⟨0, rfl, fun j b hj hne => ?_⟩
        obtain ⟨j, rfl⟩ := Nat.exists_eq_succ_of_ne_zero hne
        exact habsent b (List.mem_of_getElem? hj)
      · refine ⟨k + 1, hk, fun j b hj hne => ?_⟩
        cases j with
        | zero => exact (Option.some_inj.1 hj).symm
        | succ j => exact hothers j b hj (by omega)
    · rintro ⟨k, hk, hothers⟩
      cases k with
      | zero =>
        refine .inl ⟨Option.some_inj.1 hk, fun b hb => ?_⟩
        obtain ⟨j, hj⟩ := List.mem_iff_getElem?.1 hb
        exact hothers (j + 1) b hj (by omega)
      | succ k =>
        exact .inr ⟨hothers 0 a rfl (by omega), k, hk, fun j b hj hne =>
          hothers (j + 1) b hj (by omega)⟩

end Occurrence

/-! ## Places -/

namespace Expr

/-- The parts of an expression from left to right. -/
def parts : Expr → List Expr
  | literal _ _ _ | var _ _ | fetch _ _ | solving _ _ => []
  | unary _ _ e | group _ e | apply _ _ e | assign _ _ e | item _ _ e _ | tagged _ _ e => [e]
  | binary _ _ l r => [l, r]
  | extremum _ _ es | call _ _ es => es
  | conditional _ c y n => [c, y, n]
  | sigma _ _ a b s e => [a, b, s, e]

/-- The node that a path leads to. -/
def at? : List Nat → Expr → Option Expr
  | [], e => some e
  | k :: path, e => e.parts[k]?.bind (at? path)

/-- The nodes above the end of a path, outermost first, each with the number of the part in which
    the path goes on. -/
def above : List Nat → Expr → List (Expr × Nat)
  | [], _ => []
  | k :: path, e => (e, k) :: e.parts[k]?.elim [] (above path)

/-- The part with that number is the body of a sum with that index. -/
def Binds (name : Bytes) : Expr → Nat → Prop
  | sigma _ index _ _ _ _, k => index = name ∧ k = 3
  | _, _ => False

/-- Whether the expression is `MIN`, `MAX` or a call of a name that the parser does not know. -/
def isOpaque : Expr → Bool
  | extremum _ _ _ | call _ _ _ => true
  | _ => false

/-- The variable stands at the end of the path, and not in the body of a sum with its name as the
    index. -/
structure FreeAt (name : Bytes) (e : Expr) (path : List Nat) : Prop where
  leaf : ∃ p, e.at? path = some (var p name)
  unbound : ∀ s ∈ e.above path, ¬ Binds name s.1 s.2

/-- `MIN`, `MAX` or an unknown call stands above the end of the path. -/
def Buried (e : Expr) (path : List Nat) : Prop := ∃ s ∈ e.above path, s.1.isOpaque = true

theorem sizeOf_lt_of_mem_parts {c e : Expr} (h : c ∈ e.parts) : sizeOf c < sizeOf e := by
  cases e with
  | extremum p greatest es | call p name es =>
    have hlt : sizeOf c < sizeOf es := List.sizeOf_lt_of_mem h
    simp only [extremum.sizeOf_spec, call.sizeOf_spec]
    omega
  | literal | var | fetch | solving => simp [parts] at h
  | _ =>
    simp only [parts, List.mem_cons, List.not_mem_nil, or_false] at h
    rcases h with rfl | rfl | rfl | rfl <;> simp +arith

/-- What holds of variables, and of other expressions if it holds of their parts, holds of all. -/
theorem parts_induction {P : Expr → Prop} (var : ∀ p n, P (var p n))
    (node : ∀ e : Expr, (∀ p n, e ≠ .var p n) → (∀ c ∈ e.parts, P c) → P e) (e : Expr) : P e := by
  by_cases hvar : ∀ p n, e ≠ .var p n
  · exact node e hvar fun c hc => parts_induction var node c
  · push Not at hvar
    obtain ⟨p, n, rfl⟩ := hvar
    exact var p n
decreasing_by exact sizeOf_lt_of_mem_parts hc

variable {name : Bytes} {e c : Expr} {k : Nat} {path : List Nat}

theorem freeAt_nil : e.FreeAt name [] ↔ ∃ p, e = var p name := by
  constructor
  · rintro ⟨⟨p, hp⟩, -⟩
    exact ⟨p, Option.some_inj.1 hp⟩
  · rintro ⟨p, rfl⟩
    exact ⟨⟨p, rfl⟩, by simp [above]⟩

theorem freeAt_cons :
    e.FreeAt name (k :: path) ↔
      ¬ Binds name e k ∧ ∃ c, e.parts[k]? = some c ∧ c.FreeAt name path := by
  constructor
  · rintro ⟨⟨p, hp⟩, hunbound⟩
    obtain ⟨c, hc, hleaf⟩ := Option.bind_eq_some_iff.1 hp
    simp only [above, hc, Option.elim_some, List.mem_cons, forall_eq_or_imp] at hunbound
    exact ⟨hunbound.1, c, hc, ⟨p, hleaf⟩, hunbound.2⟩
  · rintro ⟨hbinds, c, hc, ⟨p, hp⟩, hunbound⟩
    refine ⟨⟨p, by rw [at?, hc, Option.bind_some, hp]⟩, ?_⟩
    simp only [above, hc, Option.elim_some, List.mem_cons, forall_eq_or_imp]
    exact ⟨hbinds, hunbound⟩

theorem buried_cons (hc : e.parts[k]? = some c) :
    e.Buried (k :: path) ↔ e.isOpaque = true ∨ c.Buried path := by
  simp only [Buried, above, hc, Option.elim_some, List.mem_cons, exists_eq_or_imp]

theorem freeAt_var {p : Nat} : (var p n).FreeAt name path ↔ path = [] ∧ n = name := by
  cases path with
  | nil => simp [freeAt_nil]
  | cons k path => simp [freeAt_cons, parts]

/-- The parts of an expression with the names that are bound there. -/
def scopes (bound : List Bytes) : Expr → List (Expr × List Bytes)
  | sigma _ index a b s e => [(a, bound), (b, bound), (s, bound), (e, index :: bound)]
  | e => e.parts.map (·, bound)

theorem mem_parts_of_scope {s : Expr × List Bytes} (h : (e.scopes bound)[k]? = some s) :
    s.1 ∈ e.parts := by
  replace h := List.mem_of_getElem? h
  cases e with
  | sigma p index a b step body =>
    simp only [scopes, List.mem_cons, List.not_mem_nil, or_false] at h
    rcases h with rfl | rfl | rfl | rfl <;> simp [parts]
  | _ =>
    obtain ⟨c, hc, rfl⟩ := List.mem_map.1 h
    exact hc

/-- The names bound in a part are those bound around the expression and the index of a sum. -/
theorem exists_scope_iff :
    (∃ inner, (e.scopes bound)[k]? = some (c, inner) ∧ name ∉ inner) ↔
      e.parts[k]? = some c ∧ name ∉ bound ∧ ¬ Binds name e k := by
  cases e with
  | sigma p index a b s body =>
    match k with
    | 0 | 1 | 2 => simp [scopes, parts, Binds]
    | 3 => simp [scopes, parts, Binds, and_comm, eq_comm]
    | k + 4 => simp [scopes, parts]
  | _ => simp [scopes, Binds, and_assoc]

/-- A free place of an expression that is no variable is one of a part. -/
theorem freeAt_iff_scope (hvar : ∀ p n, e ≠ var p n) :
    name ∉ bound ∧ e.FreeAt name path ↔ ∃ k rest s, path = k :: rest ∧
      (e.scopes bound)[k]? = some s ∧ name ∉ s.2 ∧ s.1.FreeAt name rest := by
  constructor
  · rintro ⟨hname, hfree⟩
    cases path with
    | nil =>
      obtain ⟨p, rfl⟩ := freeAt_nil.1 hfree
      exact absurd rfl (hvar p name)
    | cons k path =>
      obtain ⟨hbinds, c, hc, hfree⟩ := freeAt_cons.1 hfree
      obtain ⟨inner, hscope, hinner⟩ := exists_scope_iff.2 ⟨hc, hname, hbinds⟩
      exact ⟨k, path, _, rfl, hscope, hinner, hfree⟩
  · rintro ⟨k, rest, s, rfl, hscope, hinner, hfree⟩
    obtain ⟨hc, hname, hbinds⟩ := exists_scope_iff.1 ⟨s.2, hscope, hinner⟩
    exact ⟨hname, freeAt_cons.2 ⟨hbinds, s.1, hc, hfree⟩⟩

/-! ## Occurrences -/

open Occurrence List Option

/-- How the variable occurs in the parts of an expression, as seen from outside. -/
def occurrences (name : Bytes) (e : Expr) : List Occurrence :=
  (e.scopes []).map fun s => if s.2.contains name then absent else s.1.occurrence name

theorem occurrenceAll_eq (es : List Expr) :
    occurrenceAll name es = joinAll (es.map (·.occurrence name)) := by
  induction es with
  | nil => rfl
  | cons e es ih => rw [occurrenceAll, map_cons, joinAll, ih]

theorem occurrence_eq (hvar : ∀ p n, e ≠ var p n) :
    e.occurrence name =
      if e.isOpaque then (joinAll (e.occurrences name)).hidden
      else joinAll (e.occurrences name) := by
  cases e with
  | var p n => exact absurd rfl (hvar p n)
  | extremum p greatest es | call p n es =>
    simp [occurrence, occurrenceAll_eq, occurrences, scopes, parts, isOpaque, Function.comp_def]
  | sigma p index a b s e =>
    simp [occurrence, occurrences, scopes, isOpaque, joinAll, join_assoc, @eq_comm _ name index]
  | _ => simp [occurrence, occurrences, scopes, parts, isOpaque, joinAll, join_assoc]

theorem getElem?_occurrences (ha : a ≠ absent) :
    (e.occurrences name)[k]? = some a ↔
      ∃ s, (e.scopes [])[k]? = some s ∧ name ∉ s.2 ∧ s.1.occurrence name = a := by
  simp only [occurrences, getElem?_map, map_eq_some_iff]
  refine exists_congr fun s => and_congr_right fun _ => ?_
  split <;> simp_all [eq_comm]

theorem occurrence_ne_absent_iff : e.occurrence name ≠ absent ↔ ∃ path, e.FreeAt name path := by
  induction e using parts_induction with
  | var p n => simp [occurrence, freeAt_var]
  | node e hvar ih =>
    have hsome : e.occurrence name ≠ absent ↔ ∃ a ∈ e.occurrences name, a ≠ absent := by
      rw [occurrence_eq hvar, ← not_iff_not, not_not]
      push Not
      rw [← joinAll_eq_absent]
      cases e.isOpaque <;> cases joinAll (e.occurrences name) <;> simp [Occurrence.hidden]
    rw [hsome]
    constructor
    · rintro ⟨a, ha, hpresent⟩
      obtain ⟨k, hk⟩ := mem_iff_getElem?.1 ha
      obtain ⟨s, hs, hname, rfl⟩ := (getElem?_occurrences hpresent).1 hk
      obtain ⟨path, hfree⟩ := (ih s.1 (mem_parts_of_scope hs)).1 hpresent
      exact ⟨k :: path, ((freeAt_iff_scope hvar).2 ⟨k, path, s, rfl, hs, hname, hfree⟩).2⟩
    · rintro ⟨path, hfree⟩
      obtain ⟨k, rest, s, rfl, hs, hname, hfree⟩ := (freeAt_iff_scope hvar).1 ⟨not_mem_nil, hfree⟩
      have hpresent := (ih s.1 (mem_parts_of_scope hs)).2 ⟨rest, hfree⟩
      exact ⟨_, mem_of_getElem? ((getElem?_occurrences hpresent).2 ⟨s, hs, hname, rfl⟩), hpresent⟩

theorem occurrence_eq_single_iff :
    e.occurrence name = single ↔ ∃ path, e.FreeAt name path ∧
      (∀ other, e.FreeAt name other → other = path) ∧ ¬ e.Buried path := by
  induction e using parts_induction with
  | var p n => simp [occurrence, freeAt_var, Buried, above]
  | node e hvar ih =>
    have hone : e.occurrence name = single ↔
        e.isOpaque = false ∧ joinAll (e.occurrences name) = single := by
      rw [occurrence_eq hvar]
      cases e.isOpaque <;> cases joinAll (e.occurrences name) <;> simp [Occurrence.hidden]
    rw [hone, joinAll_eq_single]
    constructor
    · rintro ⟨hreadable, k, hk, hothers⟩
      obtain ⟨s, hs, hname, hsingle⟩ := (getElem?_occurrences (by simp)).1 hk
      obtain ⟨path, hfree, hunique, hclear⟩ := (ih s.1 (mem_parts_of_scope hs)).1 hsingle
      refine ⟨k :: path, ((freeAt_iff_scope hvar).2 ⟨k, path, s, rfl, hs, hname, hfree⟩).2, ?_, ?_⟩
      · intro other hother
        -- another place is in the same part, since the variable is absent from the others
        obtain ⟨j, rest, s', rfl, hs', hname', hfree'⟩ :=
          (freeAt_iff_scope hvar).1 ⟨not_mem_nil, hother⟩
        have hpresent := occurrence_ne_absent_iff.2 ⟨rest, hfree'⟩
        have hj := (getElem?_occurrences hpresent).2 ⟨s', hs', hname', rfl⟩
        obtain rfl : j = k := by_contra fun hne => hpresent (hothers j _ hj hne)
        obtain rfl := some_inj.1 (hs.symm.trans hs')
        rw [hunique rest hfree']
      · rw [buried_cons (exists_scope_iff.1 ⟨s.2, hs, hname⟩).1, hreadable]
        simpa using hclear
    · rintro ⟨path, hfree, hunique, hclear⟩
      obtain ⟨k, path, s, rfl, hs, hname, hfree⟩ := (freeAt_iff_scope hvar).1 ⟨not_mem_nil, hfree⟩
      have hplace {j : Nat} {rest : List Nat} {s' : Expr × List Bytes}
          (hs' : (e.scopes [])[j]? = some s') (hname' : name ∉ s'.2)
          (hfree' : s'.1.FreeAt name rest) : j :: rest = k :: path :=
        hunique _ ((freeAt_iff_scope hvar).2 ⟨j, rest, s', rfl, hs', hname', hfree'⟩).2
      rw [buried_cons (exists_scope_iff.1 ⟨s.2, hs, hname⟩).1, not_or, Bool.not_eq_true] at hclear
      have hsingle := (ih s.1 (mem_parts_of_scope hs)).2 ⟨path, hfree, fun other hother =>
        (cons.inj (hplace hs hname hother)).2, hclear.2⟩
      refine ⟨hclear.1, k, (getElem?_occurrences (by simp)).2 ⟨s, hs, hname, hsingle⟩, ?_⟩
      intro j a hj hne
      by_contra hpresent
      obtain ⟨s', hs', hname', rfl⟩ := (getElem?_occurrences hpresent).1 hj
      obtain ⟨rest, hfree'⟩ := occurrence_ne_absent_iff.1 hpresent
      exact hne (cons.inj (hplace hs' hname' hfree')).1

/-! ## Variables -/

theorem freeNamesAll_eq (bound : List Bytes) (es : List Expr) :
    freeNamesAll bound es = es.flatMap (freeNames bound) := by
  induction es with
  | nil => rfl
  | cons e es ih => rw [freeNamesAll, flatMap_cons, ih]

theorem freeNames_eq (hvar : ∀ p n, e ≠ var p n) (bound : List Bytes) :
    e.freeNames bound = (e.scopes bound).flatMap fun s => s.1.freeNames s.2 := by
  cases e with
  | var p n => exact absurd rfl (hvar p n)
  | extremum p greatest es | call p n es =>
    simp [freeNames, freeNamesAll_eq, scopes, parts, flatMap_map]
  | _ => simp [freeNames, scopes, parts]

/-- A list of places in the order of the text, with the names at them. -/
structure Listing (ls : List (List Nat × Bytes)) (ns : List Bytes)
    (P : List Nat → Bytes → Prop) : Prop where
  names : ls.map (·.2) = ns
  order : ls.Pairwise (·.1 < ·.1)
  mem_iff : ∀ path n, (path, n) ∈ ls ↔ P path n

/-- The places in the parts from number `k` on. -/
theorem exists_listing (ss : List (Expr × List Bytes)) (k : Nat)
    (h : ∀ s ∈ ss, ∃ ls, Listing ls (s.1.freeNames s.2) fun path n => n ∉ s.2 ∧ s.1.FreeAt n path) :
    ∃ ls, Listing ls (ss.flatMap fun s => s.1.freeNames s.2) fun path n =>
      ∃ i rest s, path = (k + i) :: rest ∧ ss[i]? = some s ∧ n ∉ s.2 ∧ s.1.FreeAt n rest := by
  induction ss generalizing k with
  | nil => exact ⟨[], rfl, .nil, by simp⟩
  | cons s ss ih =>
    obtain ⟨ls, hls⟩ := h s mem_cons_self
    obtain ⟨ms, hms⟩ := ih (k + 1) fun s hs => h s (mem_cons_of_mem _ hs)
    refine ⟨ls.map (fun l => (k :: l.1, l.2)) ++ ms, ?_, ?_, ?_⟩
    · simp [← hls.names, hms.names, Function.comp_def]
    · rw [pairwise_append, pairwise_map]
      refine ⟨hls.order.imp fun hlt => cons_lt_cons_iff.2 (.inr ⟨rfl, hlt⟩), hms.order, ?_⟩
      intro l hl m hm
      obtain ⟨l', -, rfl⟩ := mem_map.1 hl
      obtain ⟨i, rest, -, hpath, -⟩ := (hms.mem_iff m.1 m.2).1 hm
      rw [hpath]
      exact cons_lt_cons_iff.2 (.inl (by omega))
    · intro path n
      rw [mem_append, hms.mem_iff, List.mem_map]
      constructor
      · rintro (⟨⟨rest, n'⟩, hl, heq⟩ | ⟨i, rest, s', rfl, hs', hfree⟩)
        · obtain ⟨rfl, rfl⟩ := Prod.mk.inj heq
          exact ⟨0, rest, s, rfl, rfl, (hls.mem_iff rest n').1 hl⟩
        · exact ⟨i + 1, rest, s', by rw [Nat.add_right_comm, Nat.add_assoc], hs', hfree⟩
      · rintro ⟨i, rest, s', rfl, hs', hfree⟩
        cases i with
        | zero =>
          obtain rfl := some_inj.1 hs'
          exact .inl ⟨(rest, n), (hls.mem_iff rest n).2 hfree, rfl⟩
        | succ i => exact .inr ⟨i, rest, s', by rw [Nat.add_right_comm, Nat.add_assoc], hs', hfree⟩

/-- The free places of an expression in the order of the text have the names that are listed. -/
theorem exists_leaves (e : Expr) (bound : List Bytes) :
    ∃ ls, Listing ls (e.freeNames bound) fun path n => n ∉ bound ∧ e.FreeAt n path := by
  induction e using parts_induction generalizing bound with
  | var p n =>
    by_cases hn : n ∈ bound
    · refine ⟨[], by simp [freeNames, hn], .nil, fun path m => ?_⟩
      simp only [not_mem_nil, freeAt_var, false_iff, not_and]
      rintro hm - rfl
      exact hm hn
    · refine ⟨[([], n)], by simp [freeNames, hn], pairwise_singleton _ _, fun path m => ?_⟩
      simp only [mem_singleton, Prod.mk.injEq, freeAt_var]
      constructor
      · rintro ⟨rfl, rfl⟩
        exact ⟨hn, rfl, rfl⟩
      · rintro ⟨-, rfl, rfl⟩
        exact ⟨rfl, rfl⟩
  | node e hvar ih =>
    obtain ⟨ls, hls⟩ := exists_listing (e.scopes bound) 0 fun s hs => by
      obtain ⟨k, hk⟩ := mem_iff_getElem?.1 hs
      exact ih s.1 (mem_parts_of_scope hk) s.2
    refine ⟨ls, by rw [hls.names, freeNames_eq hvar], hls.order, fun path n => ?_⟩
    rw [hls.mem_iff, freeAt_iff_scope hvar]
    simp only [Nat.zero_add]

/-! ## First copies -/

theorem mem_firstCopies {seen ns : List Bytes} : n ∈ firstCopies seen ns ↔ n ∈ ns ∧ n ∉ seen := by
  induction ns generalizing seen with
  | nil => simp [firstCopies]
  | cons m ns ih =>
    rw [firstCopies]
    split <;> grind

theorem nodup_firstCopies (seen ns : List Bytes) : (firstCopies seen ns).Nodup := by
  induction ns generalizing seen with
  | nil => exact nodup_nil
  | cons m ns ih =>
    rw [firstCopies]
    split
    · exact ih seen
    · refine nodup_cons.2 ⟨?_, ih _⟩
      simp [mem_firstCopies]

/-- Of names listed with their places in order, the first copies are in the order of the first
    places. -/
theorem pairwise_firstCopies {ls : List (List Nat × Bytes)} (h : ls.Pairwise (·.1 < ·.1))
    (seen : List Bytes) :
    (firstCopies seen (ls.map (·.2))).Pairwise fun a b =>
      ∃ path, (path, a) ∈ ls ∧ ∀ other, (other, b) ∈ ls → path < other := by
  induction ls generalizing seen with
  | nil => exact .nil
  | cons l ls ih =>
    obtain ⟨hl, hls⟩ := pairwise_cons.1 h
    -- a name that is listed later than `l` is not the name of `l`
    have hlater (seen : List Bytes) (hseen : l.2 ∈ seen) :
        (firstCopies seen (ls.map (·.2))).Pairwise fun a b =>
          ∃ path, (path, a) ∈ l :: ls ∧ ∀ other, (other, b) ∈ l :: ls → path < other := by
      refine (ih hls seen).imp_of_mem fun _ hb hab => ?_
      obtain ⟨path, hpath, hfirst⟩ := hab
      refine ⟨path, mem_cons_of_mem _ hpath, fun other hother => ?_⟩
      rcases mem_cons.1 hother with rfl | hother
      · exact absurd hseen (mem_firstCopies.1 hb).2
      · exact hfirst other hother
    rw [map_cons, firstCopies]
    split
    · next hseen => exact hlater seen hseen
    · refine pairwise_cons.2 ⟨fun b hb => ?_, hlater _ mem_cons_self⟩
      refine ⟨l.1, mem_cons_self, fun other hother => ?_⟩
      rcases mem_cons.1 hother with rfl | hother
      · exact absurd mem_cons_self (mem_firstCopies.1 hb).2
      · exact hl _ hother

theorem mem_vars_iff : name ∈ e.vars ↔ e.occurrence name ≠ absent := by
  obtain ⟨ls, hls⟩ := exists_leaves e []
  rw [vars, mem_firstCopies, ← hls.names, and_iff_left not_mem_nil, List.mem_map,
    occurrence_ne_absent_iff]
  constructor
  · rintro ⟨l, hl, rfl⟩
    exact ⟨l.1, ((hls.mem_iff l.1 l.2).1 hl).2⟩
  · rintro ⟨path, hfree⟩
    exact ⟨_, (hls.mem_iff path name).2 ⟨not_mem_nil, hfree⟩, rfl⟩

/-- How a variable occurs is told by its free places: it is absent if there are none, it occurs once
    if there is one and neither `MIN`, `MAX` nor an unknown call stands above it, and it is
    entangled in all other cases. The variables of an expression are those that occur, each listed
    once, in the order of their first free places. -/
theorem occurrence_counts_places (e : Expr) :
    (∀ name,
      (e.occurrence name = .absent ↔ ¬ ∃ path, e.FreeAt name path) ∧
      (e.occurrence name = .single ↔ ∃ path, e.FreeAt name path ∧
        (∀ other, e.FreeAt name other → other = path) ∧ ¬ e.Buried path) ∧
      (e.occurrence name = .entangled ↔ ∃ path, e.FreeAt name path ∧
        (e.Buried path ∨ ∃ other, e.FreeAt name other ∧ other ≠ path))) ∧
    e.vars.Nodup ∧ (∀ name, name ∈ e.vars ↔ e.occurrence name ≠ .absent) ∧
    e.vars.Pairwise fun a b =>
      ∃ path, e.FreeAt a path ∧ ∀ other, e.FreeAt b other → path < other := by
  refine ⟨fun name => ⟨(not_iff_comm.1 occurrence_ne_absent_iff).symm, occurrence_eq_single_iff,
    ?_⟩, nodup_firstCopies _ _, fun name => mem_vars_iff, ?_⟩
  swap
  · obtain ⟨ls, hls⟩ := exists_leaves e []
    rw [vars, ← hls.names]
    simpa [hls.mem_iff] using pairwise_firstCopies hls.order []
  have hother : e.occurrence name = .entangled ↔
      e.occurrence name ≠ .absent ∧ e.occurrence name ≠ .single := by
    cases e.occurrence name <;> simp
  rw [hother, occurrence_ne_absent_iff, ne_eq, occurrence_eq_single_iff]
  constructor
  · rintro ⟨⟨path, hfree⟩, hnone⟩
    refine ⟨path, hfree, ?_⟩
    by_contra! h
    exact hnone ⟨path, hfree, h.2, h.1⟩
  · rintro ⟨path, hfree, hmore⟩
    refine ⟨⟨path, hfree⟩, ?_⟩
    rintro ⟨only, -, hunique, hclear⟩
    rcases hmore with hburied | ⟨other, hother, hne⟩
    · exact hclear (hunique path hfree ▸ hburied)
    · exact hne ((hunique other hother).trans (hunique path hfree).symm)

end Expr

end Keystroke
