import Keystroke.Compile.Equation
import Keystroke.Proofs.Compile.Storing
import Keystroke.Proofs.Fingerprint.Serialize
import Keystroke.Proofs.Machine.Parallel

set_option autoImplicit false

/-! # Equations with the same form have the same code

Two equations with the same form that also name the same matrices and flags are compiled to programs
that agree line by line: up to the spelling of numbers and the names of indices they have the same
lines, and these names stand for the index of the same sum (`Expr.paired_emitted`). -/

namespace Keystroke

open List CodeLine

/-! ## Names -/

/-- The indices of the sums around a line in one program and around its twin in another, innermost
    first. -/
abbrev Scope := List (Bytes × Bytes)

namespace Scope

/-- The names stand for the same: for the index of one sum, or for one variable of the session, with
    the given property. -/
def Same (P : Bytes → Prop) : Scope → Bytes → Bytes → Prop
  | [], a, b => a = b ∧ P a
  | (i, j) :: σ, a, b => a = i ∧ b = j ∨ a ≠ i ∧ b ≠ j ∧ Same P σ a b

/-- The local variables that a sum has beside its index. -/
def ownNames : List Bytes := [stepName, countName, totalName]

/-- The names of two twin lines: names of the users that stand for the same, or one of the
    compiler's own that the innermost sum has stored. -/
def Seen (P : Bytes → Prop) (σ : Scope) (own : List Bytes) (a b : Bytes) : Prop :=
  ProperName a ∧ ProperName b ∧ σ.Same P a b ∨ a = b ∧ σ ≠ [] ∧ a ∈ own

variable {P : Bytes → Prop} {σ : Scope} {a b : Bytes}

theorem same_of_findIdx? (hP : ∀ n, P n)
    (h : (σ.map (·.1)).findIdx? (· == a) = (σ.map (·.2)).findIdx? (· == b))
    (hfree : (σ.map (·.1)).findIdx? (· == a) = none → a = b) : σ.Same P a b := by
  induction σ with
  | nil => exact ⟨hfree rfl, hP a⟩
  | cons index σ ih =>
    obtain ⟨i, j⟩ := index
    simp only [map_cons, findIdx?_cons, beq_iff_eq] at h hfree
    by_cases ha : i = a
    · by_cases hb : j = b
      · exact .inl ⟨ha.symm, hb.symm⟩
      · simp [ha, hb] at h
    · by_cases hb : j = b
      · simp [ha, hb] at h
      · simp only [ha, hb, if_false] at h
        have hsame := Option.map_injective Nat.succ_injective h
        refine .inr ⟨Ne.symm ha, Ne.symm hb, ih hsame fun hnone => hfree ?_⟩
        simp [ha, hnone]

/-- Names with one form stand for the same, as long as indices are not too deep to be counted. -/
theorem same_of_resolve (hP : ∀ n, P n) (hdepth : σ.length ≤ 65536)
    (h : NameRef.resolve (σ.map (·.1)) a = NameRef.resolve (σ.map (·.2)) b) :
    σ.Same P a b := by
  unfold NameRef.resolve at h
  cases ha : (σ.map (·.1)).findIdx? (· == a) with
  | none =>
    cases hb : (σ.map (·.2)).findIdx? (· == b) with
    | none =>
      rw [ha, hb] at h
      exact same_of_findIdx? hP (ha.trans hb.symm) fun _ => NameRef.free.inj h
    | some n =>
      rw [ha, hb] at h
      cases h
  | some m =>
    cases hb : (σ.map (·.2)).findIdx? (· == b) with
    | none =>
      rw [ha, hb] at h
      cases h
    | some n =>
      rw [ha, hb] at h
      have hm := (findIdx?_eq_some_iff_findIdx_eq.1 ha).1
      have hn := (findIdx?_eq_some_iff_findIdx_eq.1 hb).1
      rw [length_map] at hm hn
      have hword := congrArg UInt16.toNat (NameRef.bound.inj h)
      simp only [Nat.toUInt16_eq, UInt16.toNat_ofNat'] at hword
      obtain rfl : m = n := by omega
      exact same_of_findIdx? hP (ha.trans hb.symm) fun hnone => by simp [ha] at hnone

end Scope

/-! ## Twin lines -/

/-- Whether a line with the command calculates: it works on the stack and goes on with the next
    line. -/
def Command.calculates (c : Command) : Bool := c.isOrdinary && c.action?.all Action.calculates

theorem Instr.command_stored (i : Instr) : i.stored.command = i.command := by
  unfold Instr.stored
  split <;> rfl

/-- Whether such a line looks neither at a matrix nor at the last X. -/
def Command.computes (c : Command) : Bool := c.isOrdinary && c.action?.all Action.computes

/-! ## Twin subroutines -/

/-- The subroutines of one sum in both programs. -/
structure TwinSub where
  /-- The label at the top. -/
  id : Nat
  /-- The index, which the first line stores. -/
  index : Bytes × Bytes
  /-- The indices around the sum. -/
  outer : Scope
  /-- The lines behind the first in one program. -/
  left : List CodeLine
  /-- The lines behind the first in the other. -/
  right : List CodeLine

namespace TwinSub

/-- The indices around the lines behind the first. -/
def scope (u : TwinSub) : Scope := u.index :: u.outer

/-- The lines of a subroutine with the given index. -/
def linesWith (u : TwinSub) (index : Bytes) (rest : List CodeLine) : List CodeLine :=
  .label u.id :: .plain (.withName .lsto index) :: rest

end TwinSub

/-- The lines do the same within these indices, jumps go to labels among `marks` or to the top of a
    sum within the same indices, and tests are in front of jumps. In front of the lines the
    innermost sum has stored the names in the first list; behind them it has stored all. -/
inductive TwinLines (S : Sharing) (σ : Scope) (marks : List CodeLine) (subs : List TwinSub) :
    List Bytes → List CodeLine → List CodeLine → Prop
  | nil : TwinLines S σ marks subs Scope.ownNames [] []
  | calculate {own : List Bytes} {i i' : Instr} {left right : List CodeLine}
      (hc : i'.stored.command = i.stored.command) (ho : i'.stored.operand = i.stored.operand)
      (hi : S.Admits i.stored) (h : TwinLines S σ marks subs own left right) :
    TwinLines S σ marks subs own (.plain i :: left) (.plain i' :: right)
  | named {own : List Bytes} {c : Command} {a b : Bytes} {left right : List CodeLine}
      (hc : c ∈ [.rcl, .sto, .stoAdd, .stoSubtract])
      (hab : Scope.Seen (fun n => c ≠ .sto → S.Real n) σ own a b)
      (h : TwinLines S σ marks subs own left right) :
    TwinLines S σ marks subs own (.plain (.withName c a) :: left) (.plain (.withName c b) :: right)
  | stored {own : List Bytes} {name : Bytes} {left right : List CodeLine} (hσ : σ ≠ [])
      (hname : name ∈ Scope.ownNames) (h : TwinLines S σ marks subs (own ++ [name]) left right) :
    TwinLines S σ marks subs own (.plain (.withName .lsto name) :: left)
      (.plain (.withName .lsto name) :: right)
  | label (id : Nat) {left right : List CodeLine}
      (h : TwinLines S σ marks subs Scope.ownNames left right) :
    TwinLines S σ marks subs Scope.ownNames (.label id :: left) (.label id :: right)
  | goto {k : Nat} {left right : List CodeLine} (hk : .label k ∈ marks)
      (h : TwinLines S σ marks subs Scope.ownNames left right) :
    TwinLines S σ marks subs Scope.ownNames (.jump .gtol k :: left) (.jump .gtol k :: right)
  | call {u : TwinSub} {left right : List CodeLine} (hu : u ∈ subs) (hσ : u.outer = σ)
      (h : TwinLines S σ marks subs Scope.ownNames left right) :
    TwinLines S σ marks subs Scope.ownNames (.jump .xeql u.id :: left) (.jump .xeql u.id :: right)
  | test {c : Command} {id : Int} {left right : List CodeLine}
      (h : TwinLines S σ marks subs Scope.ownNames (.jump c id :: left) (.jump c id :: right)) :
    TwinLines S σ marks subs Scope.ownNames (.plain (.plain .ifTrue) :: .jump c id :: left)
      (.plain (.plain .ifTrue) :: .jump c id :: right)

/-- The subroutine is one of a sum with proper names for its index. -/
structure TwinSub.Sound (S : Sharing) (subs : List TwinSub) (u : TwinSub) : Prop where
  lines : TwinLines S u.scope u.left subs [] u.left u.right
  left_proper : ProperName u.index.1
  right_proper : ProperName u.index.2

/-- What two expressions add is code with twin lines. -/
structure Emitted.Paired (S : Sharing) (σ : Scope) (x y : Emitted) : Prop where
  labels : x.labels = y.labels
  lines : ∃ subs : List TwinSub,
    x.subroutines = subs.map (fun u => u.linesWith u.index.1 u.left) ∧
    y.subroutines = subs.map (fun u => u.linesWith u.index.2 u.right) ∧
    TwinLines S σ x.stream subs Scope.ownNames x.stream y.stream ∧ ∀ u ∈ subs, u.Sound S subs

namespace TwinLines

variable {S : Sharing} {σ : Scope} {marks marks' : List CodeLine} {subs subs' : List TwinSub}
  {own : List Bytes} {left left' right right' : List CodeLine}

section

variable (h : TwinLines S σ marks subs own left right)

include h

theorem mono (hmarks : marks ⊆ marks')
    (hsubs : subs ⊆ subs') : TwinLines S σ marks' subs' own left right := by
  induction h with
  | nil => exact .nil
  | calculate hc ho hi _ ih => exact .calculate hc ho hi ih
  | named hc hab _ ih => exact .named hc hab ih
  | stored hσ hname _ ih => exact .stored hσ hname ih
  | label id _ ih => exact .label id ih
  | goto hk _ ih => exact .goto (hmarks hk) ih
  | call hu hσ _ ih => exact .call (hsubs hu) hσ ih
  | test _ ih => exact .test ih

theorem append (h' : TwinLines S σ marks subs Scope.ownNames left' right') :
    TwinLines S σ marks subs own (left ++ left') (right ++ right') := by
  induction h with
  | nil => exact h'
  | calculate hc ho hi _ ih => exact .calculate hc ho hi ih
  | named hc hab _ ih => exact .named hc hab ih
  | stored hσ hname _ ih => exact .stored hσ hname ih
  | label id _ ih => exact .label id ih
  | goto hk _ ih => exact .goto hk ih
  | call hu hσ _ ih => exact .call hu hσ ih
  | test _ ih => exact .test ih

theorem width_eq : Code.width left = Code.width right := by
  induction h with
  | nil => rfl
  | _ => simp_all [Code.width]

end

theorem compute {i : Instr} (hi : i.command.computes = true)
    (h : TwinLines S σ marks subs own left right) :
    TwinLines S σ marks subs own (.plain i :: left) (.plain i :: right) := by
  refine .calculate rfl rfl (S.admits_of_computes ?_) h
  rw [Instr.command_stored]
  exact (Bool.and_eq_true_iff.1 hi).2

theorem calculates {i : Instr} (hi : i.command.calculates = true)
    (h : TwinLines .all σ marks subs own left right) :
    TwinLines .all σ marks subs own (.plain i :: left) (.plain i :: right) := by
  refine .calculate rfl rfl (Sharing.all.admits_of_calculates ?_ trivial trivial) h
  rw [Instr.command_stored]
  exact (Bool.and_eq_true_iff.1 hi).2

theorem number (value : UInt64) (text text' : Bytes)
    (h : TwinLines S σ marks subs own left right) :
    TwinLines S σ marks subs own (.plain (.ofNumber value text) :: left)
      (.plain (.ofNumber value text') :: right) :=
  .calculate rfl rfl (S.admits_of_computes rfl) h

theorem moveToLocal {name : Bytes} (hσ : σ ≠ []) (hname : name ∈ Scope.ownNames)
    (h : TwinLines S σ marks subs (own ++ [name]) left right) :
    TwinLines S σ marks subs own (moveToLocal name ++ left) (moveToLocal name ++ right) :=
  .stored hσ hname (h.compute (by decide))

end TwinLines

/-! ## Sums -/

/-- The lines of a sum's subroutine behind the first, which stores the index. -/
def sumRest (index : Bytes) (loop done : Nat) (body : List CodeLine) : List CodeLine :=
  (sumPrologue index).tail ++ sumTest loop done ++ body ++ sumEpilogue index loop done

section

variable {S : Sharing} {σ : Scope} {marks : List CodeLine} {subs : List TwinSub} {i j : Bytes}

theorem Scope.seen_own {P : Bytes → Prop} {own : List Bytes} {name : Bytes} (hσ : σ ≠ [])
    (h : name ∈ own) : σ.Seen P own name name := .inr ⟨rfl, hσ, h⟩

theorem twinLines_sumPrologue (hσ : σ ≠ []) (hindex : ∀ P own, σ.Seen P own i j) :
    TwinLines S σ marks subs [] (sumPrologue i).tail (sumPrologue j).tail :=
  .compute (by decide) <| .moveToLocal hσ (by decide) <| .named (by decide) (hindex _ _) <|
    .compute (by decide) <| .named (by decide) (Scope.seen_own hσ (by decide)) <|
    .compute (by decide) <| .number _ _ _ <| .compute (by decide) <| .compute (by decide) <|
    .moveToLocal hσ (by decide) <| .number _ _ _ <| .moveToLocal hσ (by decide) .nil

theorem twinLines_sumTest (hσ : σ ≠ []) {loop done : Nat} (hdone : .label done ∈ marks) :
    TwinLines S σ marks subs Scope.ownNames (sumTest loop done) (sumTest loop done) :=
  .label _ <| .named (by decide) (Scope.seen_own hσ (by decide)) <| .number _ _ _ <|
    .compute (by decide) <| .test <| .goto hdone .nil

theorem twinLines_sumEpilogue (hσ : σ ≠ []) (hindex : ∀ P own, σ.Seen P own i j) {loop done : Nat}
    (hloop : .label loop ∈ marks) :
    TwinLines S σ marks subs Scope.ownNames (sumEpilogue i loop done) (sumEpilogue j loop done) :=
  .named (by decide) (Scope.seen_own hσ (by decide)) <| .compute (by decide) <|
    .named (by decide) (Scope.seen_own hσ (by decide)) <| .named (by decide) (hindex _ _) <|
    .compute (by decide) <| .number _ _ _ <|
    .named (by decide) (Scope.seen_own hσ (by decide)) <| .compute (by decide) <|
    .goto hloop <| .label _ <| .named (by decide) (Scope.seen_own hσ (by decide)) .nil

theorem twinLines_sumRest (hσ : σ ≠ []) (hindex : ∀ P own, σ.Seen P own i j) (loop done : Nat)
    {left right : List CodeLine} (h : TwinLines S σ left subs Scope.ownNames left right) :
    TwinLines S σ (sumRest i loop done left) subs [] (sumRest i loop done left)
      (sumRest j loop done right) := by
  have hloop : .label loop ∈ sumRest i loop done left := by simp [sumRest, sumTest]
  have hdone : .label done ∈ sumRest i loop done left := by simp [sumRest, sumEpilogue]
  have hmarks : left ⊆ sumRest i loop done left := fun c hc => by simp [sumRest, hc]
  have hbody := h.mono hmarks (List.Subset.refl subs)
  exact (((twinLines_sumPrologue hσ hindex).append (twinLines_sumTest hσ hdone)).append
    hbody).append (twinLines_sumEpilogue hσ hindex hloop)

end

/-! ## What expressions add -/

theorem TwinSub.Sound.mono {S : Sharing} {subs subs' : List TwinSub} {u : TwinSub}
    (h : u.Sound S subs) (hsubs : subs ⊆ subs') : u.Sound S subs' :=
  ⟨h.lines.mono (List.Subset.refl _) hsubs, h.left_proper, h.right_proper⟩

namespace Emitted.Paired

variable {S : Sharing} {σ : Scope} {x y x' y' : Emitted} {left right : List CodeLine}

theorem single (n : Nat) (h : ∀ marks subs, TwinLines S σ marks subs Scope.ownNames left right) :
    Paired S σ ⟨left, [], n⟩ ⟨right, [], n⟩ :=
  ⟨rfl, [], rfl, rfl, h _ _, by simp⟩

theorem snoc (h : Paired S σ x y)
    (h' : ∀ marks subs, TwinLines S σ marks subs Scope.ownNames left right) :
    Paired S σ ⟨x.stream ++ left, x.subroutines, x.labels⟩
      ⟨y.stream ++ right, y.subroutines, y.labels⟩ := by
  obtain ⟨hlabels, subs, hx, hy, hlines, hsubs⟩ := h
  exact ⟨hlabels, subs, hx, hy,
    (hlines.mono (subset_append_left _ _) (List.Subset.refl _)).append (h' _ _), hsubs⟩

theorem append (h : Paired S σ x y) (h' : Paired S σ x' y') :
    Paired S σ (x.append x') (y.append y') := by
  obtain ⟨-, subs, hx, hy, hlines, hsubs⟩ := h
  obtain ⟨hlabels, subs', hx', hy', hlines', hsubs'⟩ := h'
  refine ⟨hlabels, subs ++ subs', ?_, ?_, ?_, ?_⟩
  · rw [Emitted.append, hx, hx', map_append]
  · rw [Emitted.append, hy, hy', map_append]
  · exact (hlines.mono (subset_append_left _ _) (subset_append_left _ _)).append
      (hlines'.mono (subset_append_right _ _) (subset_append_right _ _))
  · intro u hu
    rcases mem_append.1 hu with hu | hu
    · exact (hsubs u hu).mono (subset_append_left _ _)
    · exact (hsubs' u hu).mono (subset_append_right _ _)

theorem conditional {z z' : Emitted} (n : Nat) (hc : Paired S σ x x') (hn : Paired S σ y y')
    (hy : Paired S σ z z') :
    Paired S σ
      ⟨x.stream ++ [plain (.plain .ifTrue), .jump .gtol (n + 1 : Nat)] ++ y.stream ++
        [jump .gtol (n + 2 : Nat), .label (n + 1)] ++ z.stream ++ [label (n + 2)],
        x.subroutines ++ y.subroutines ++ z.subroutines, z.labels⟩
      ⟨x'.stream ++ [plain (.plain .ifTrue), .jump .gtol (n + 1 : Nat)] ++ y'.stream ++
        [jump .gtol (n + 2 : Nat), .label (n + 1)] ++ z'.stream ++ [label (n + 2)],
        x'.subroutines ++ y'.subroutines ++ z'.subroutines, z'.labels⟩ := by
  obtain ⟨-, subs1, hx, hx', hlines1, hsubs1⟩ := hc
  obtain ⟨-, subs2, hy2, hy2', hlines2, hsubs2⟩ := hn
  obtain ⟨hlabels, subs3, hz, hz', hlines3, hsubs3⟩ := hy
  have h1 : subs1 ⊆ subs1 ++ subs2 ++ subs3 := fun u hu => by simp [hu]
  have h2 : subs2 ⊆ subs1 ++ subs2 ++ subs3 := fun u hu => by simp [hu]
  have h3 : subs3 ⊆ subs1 ++ subs2 ++ subs3 := fun u hu => by simp [hu]
  refine ⟨hlabels, subs1 ++ subs2 ++ subs3, ?_, ?_, ?_, ?_⟩
  · simp only [hx, hy2, hz, map_append]
  · simp only [hx', hy2', hz', map_append]
  · exact (((((hlines1.mono (fun c hc => by simp [hc]) h1).append
      (.test (.goto (by simp) .nil))).append
      (hlines2.mono (fun c hc => by simp [hc]) h2)).append
      (.goto (by simp) (.label (n + 1) .nil))).append
      (hlines3.mono (fun c hc => by simp [hc]) h3)).append (.label (n + 2) .nil)
  · intro u hu
    simp only [mem_append] at hu
    rcases hu with (hu | hu) | hu
    · exact (hsubs1 u hu).mono h1
    · exact (hsubs2 u hu).mono h2
    · exact (hsubs3 u hu).mono h3

theorem sigma {z z' w w' : Emitted} (n : Nat) {i j : Bytes} (hi : ProperName i) (hj : ProperName j)
    (hlast : Paired S σ x x') (hstep : Paired S σ y y') (hfirst : Paired S σ z z')
    (hbody : Paired S ((i, j) :: σ) w w') :
    Paired S σ
      ⟨x.stream ++ y.stream ++ z.stream ++ [jump .xeql (n + 1 : Nat)],
        x.subroutines ++ y.subroutines ++ z.subroutines ++ w.subroutines ++
          [label (n + 1) :: (sumPrologue i ++ sumTest (n + 2) (n + 3) ++ w.stream ++
            sumEpilogue i (n + 2) (n + 3))], w.labels⟩
      ⟨x'.stream ++ y'.stream ++ z'.stream ++ [jump .xeql (n + 1 : Nat)],
        x'.subroutines ++ y'.subroutines ++ z'.subroutines ++ w'.subroutines ++
          [label (n + 1) :: (sumPrologue j ++ sumTest (n + 2) (n + 3) ++ w'.stream ++
            sumEpilogue j (n + 2) (n + 3))], w'.labels⟩ := by
  obtain ⟨-, subs, hx, hx', hlines, hsubs⟩ := (hlast.append hstep).append hfirst
  obtain ⟨hlabels, inner, hw, hw', hinner, hsubs'⟩ := hbody
  obtain ⟨u, hid, hindex, houter, hleft, hright⟩ : ∃ u : TwinSub, u.id = n + 1 ∧ u.index = (i, j) ∧
      u.outer = σ ∧ u.left = sumRest i (n + 2) (n + 3) w.stream ∧
      u.right = sumRest j (n + 2) (n + 3) w'.stream := ⟨⟨_, _, _, _, _⟩, rfl, rfl, rfl, rfl, rfl⟩
  have hall : subs ⊆ subs ++ inner ++ [u] := fun v hv => by simp [hv]
  have hwithin : inner ⊆ subs ++ inner ++ [u] := fun v hv => by simp [hv]
  refine ⟨hlabels, subs ++ inner ++ [u], ?_, ?_, ?_, ?_⟩
  · rw [map_append, map_append, ← hx, ← hw, map_singleton, TwinSub.linesWith, hid, hindex, hleft]
    rfl
  · rw [map_append, map_append, ← hx', ← hw', map_singleton, TwinSub.linesWith, hid, hindex, hright]
    rfl
  · exact (hlines.mono (subset_append_left _ _) hall).append
      (hid ▸ .call (by simp) houter .nil)
  · intro v hv
    simp only [mem_append, mem_singleton] at hv
    rcases hv with (hv | hv) | rfl
    · exact (hsubs v hv).mono hall
    · exact (hsubs' v hv).mono hwithin
    · refine ⟨?_, by rw [hindex]; exact hi, by rw [hindex]; exact hj⟩
      rw [TwinSub.scope, hindex, houter, hleft, hright]
      exact twinLines_sumRest (cons_ne_nil _ _) (fun _ _ => .inl ⟨hi, hj, .inl ⟨rfl, rfl⟩⟩) _ _
        (hinner.mono (List.Subset.refl _) hwithin)

end Emitted.Paired

/-! ## Expressions with the same form -/

namespace Expr

/-- The expression without the parentheses and the name around it. -/
def core : Expr → Expr
  | group _ e | tagged _ _ e => e.core
  | e => e

/-- Whether the expression has neither around it. -/
def IsCore : Expr → Prop
  | group _ _ | tagged _ _ _ => False
  | _ => True

theorem isCore_core (e : Expr) : e.core.IsCore := by
  induction e using core.induct with
  | case1 _ e ih | case2 _ _ e ih => rwa [core]
  | case3 e hgroup htagged =>
    rw [core, IsCore]
    · trivial
    all_goals assumption

mutual

/-- The names of the matrices and flags that an expression asks for, in order. -/
def lookups : Expr → List Bytes
  | literal _ _ _ | var _ _ | fetch _ _ => []
  | solving _ name => [name]
  | item _ name e _ => name :: e.lookups
  | unary _ _ e | group _ e | apply _ _ e | assign _ _ e | tagged _ _ e => e.lookups
  | binary _ _ l r => l.lookups ++ r.lookups
  | extremum _ _ es | call _ _ es => lookupsAll es
  | conditional _ c y n => c.lookups ++ y.lookups ++ n.lookups
  | sigma _ _ a b s e => a.lookups ++ b.lookups ++ s.lookups ++ e.lookups

/-- The names of the matrices and flags that several expressions ask for. -/
def lookupsAll : List Expr → List Bytes
  | [] => []
  | e :: es => e.lookups ++ lookupsAll es

end

theorem core_keeps (names : NameTable) (e : Expr) :
    (∀ n, e.core.emitted names n = e.emitted names n) ∧
    (∀ indices, e.core.formBelow indices = e.formBelow indices) ∧ e.core.lookups = e.lookups ∧
    (e.core.Proper ↔ e.Proper) := by
  induction e using core.induct with
  | case1 _ e ih | case2 _ _ e ih => simpa only [core, emitted, formBelow, lookups, Proper] using ih
  | case3 e hgroup htagged =>
    rw [core]
    · simp
    · exact hgroup
    · exact htagged

end Expr

mutual

/-- How many matrices and flags a form asks for. -/
def Form.lookupCount : Form → Nat
  | number _ | name _ | fetch _ => 0
  | solving _ => 1
  | item _ e => e.lookupCount + 1
  | unary _ e | apply _ e | assign _ e | equation _ e => e.lookupCount
  | binary _ l r => l.lookupCount + r.lookupCount
  | extremum _ es | call _ es => Form.lookupCountAll es
  | conditional c y n => c.lookupCount + y.lookupCount + n.lookupCount
  | sigma a b s e => a.lookupCount + b.lookupCount + s.lookupCount + e.lookupCount

/-- How many matrices and flags several forms ask for. -/
def Form.lookupCountAll : List Form → Nat
  | [] => 0
  | e :: es => e.lookupCount + Form.lookupCountAll es

end

namespace Expr

mutual

theorem length_lookups (e : Expr) (indices : List Bytes) :
    e.lookups.length = (e.formBelow indices).lookupCount := by
  cases e with
  | literal | var | fetch | solving => rfl
  | group p e | tagged p name e | unary p op e | apply p fn e | assign p name e =>
    rw [lookups, formBelow]
    exact length_lookups e indices
  | item p name e bracket =>
    rw [lookups, formBelow, Form.lookupCount, length_cons, length_lookups e indices]
  | binary p op l r =>
    rw [lookups, formBelow, Form.lookupCount, length_append, length_lookups l indices,
      length_lookups r indices]
  | extremum p greatest es | call p name es =>
    rw [lookups, formBelow, Form.lookupCount]
    exact length_lookupsAll es indices
  | conditional p c y n =>
    rw [lookups, formBelow, Form.lookupCount, length_append, length_append,
      length_lookups c indices, length_lookups y indices, length_lookups n indices]
  | sigma p index a b s e =>
    rw [lookups, formBelow, Form.lookupCount, length_append, length_append,
      length_append, length_lookups a indices, length_lookups b indices,
      length_lookups s indices, length_lookups e (index :: indices)]

theorem length_lookupsAll (es : List Expr) (indices : List Bytes) :
    (lookupsAll es).length = Form.lookupCountAll (formBelowAll indices es) := by
  cases es with
  | nil => rfl
  | cons e es =>
    rw [lookupsAll, formBelowAll, Form.lookupCountAll, length_append,
      length_lookups e indices, length_lookupsAll es indices]

end

theorem length_lookups_eq {e1 e2 : Expr} {is js : List Bytes}
    (h : e1.formBelow is = e2.formBelow js) : e1.lookups.length = e2.lookups.length := by
  rw [e1.length_lookups is, e2.length_lookups js, h]

theorem length_formBelowAll (indices : List Bytes) (es : List Expr) :
    (formBelowAll indices es).length = es.length := by
  induction es with
  | nil => rfl
  | cons e es ih => rw [formBelowAll, length_cons, ih, length_cons]

/-- Two expressions within the indices of their sums have the same form and ask for the same
    matrices and flags, and their calls are calculations. -/
structure Alike (names : NameTable) (σ : Scope) (e1 e2 : Expr) : Prop where
  form : e1.formBelow (σ.map (·.1)) = e2.formBelow (σ.map (·.2))
  lookups : e1.lookups = e2.lookups
  left : e1.Proper
  right : e2.Proper
  calls : ∀ c ∈ e1.calls, ∃ command, names.command? c.1 c.2 = some command ∧
    command.calculates = true
  depth : σ.length + e1.sumDepth ≤ 65536

/-- The same of several expressions in turn. -/
structure AlikeAll (names : NameTable) (σ : Scope) (es1 es2 : List Expr) : Prop where
  form : formBelowAll (σ.map (·.1)) es1 = formBelowAll (σ.map (·.2)) es2
  lookups : lookupsAll es1 = lookupsAll es2
  left : ProperAll es1
  right : ProperAll es2
  calls : ∀ c ∈ callsAll es1, ∃ command, names.command? c.1 c.2 = some command ∧
    command.calculates = true
  depth : σ.length + sumDepthAll es1 ≤ 65536

section

variable {names : NameTable}

theorem Alike.core {σ : Scope} {e1 e2 : Expr} (h : Alike names σ e1 e2) :
    Alike names σ e1 e2.core := by
  obtain ⟨-, hform, hlookups, hproper⟩ := e2.core_keeps names
  exact { h with
    form := h.form.trans (hform _).symm
    lookups := h.lookups.trans hlookups.symm
    right := hproper.2 h.right }

theorem Alike.seen {σ : Scope} {a b : Bytes} (hdepth : σ.length ≤ 65536) (ha : ProperName a)
    (hb : ProperName b)
    (h : NameRef.resolve (σ.map (·.1)) a = NameRef.resolve (σ.map (·.2)) b) (c : Command) :
    σ.Seen (fun n => c ≠ .sto → Sharing.all.Real n) Scope.ownNames a b :=
  .inl ⟨ha, hb, Scope.same_of_resolve (fun _ _ => trivial) hdepth h⟩

theorem AlikeAll.length_eq {σ : Scope} {es1 es2 : List Expr} (h : AlikeAll names σ es1 es2) :
    es1.length = es2.length := by
  rw [← length_formBelowAll (σ.map (·.1)), h.form, length_formBelowAll]

mutual

theorem paired_emitted {σ : Scope} (e1 e2 : Expr) (h : Alike names σ e1 e2) (n : Nat) :
    (e1.emitted names n).Paired .all σ (e2.emitted names n) := by
  rw [← (e2.core_keeps names).1 n]
  have halike := h.core
  have hcore := e2.isCore_core
  generalize e2.core = f at halike hcore ⊢
  clear h e2
  obtain ⟨hform, hlookups, hp1, hp2, hcalls, hdepth⟩ := halike
  cases e1
  case group p e | tagged p name e =>
    exact paired_emitted e f ⟨hform, hlookups, hp1, hp2, hcalls, hdepth⟩ n
  all_goals cases f
  case literal.literal p v text p' v' text' =>
    simp only [formBelow, Form.number.injEq] at hform
    subst hform
    exact .single n fun _ _ => .number _ _ _ .nil
  case var.var p a p' b =>
    simp only [formBelow, Form.name.injEq] at hform
    exact .single n fun _ _ => .named (by decide) (Alike.seen (by omega) hp1 hp2 hform _) .nil
  case fetch.fetch p a p' b =>
    simp only [formBelow, Form.fetch.injEq] at hform
    exact .single n fun _ _ => .named (by decide) (Alike.seen (by omega) hp1 hp2 hform _) .nil
  case solving.solving p a p' b =>
    obtain rfl := singleton_inj.1 hlookups
    exact .single n fun _ _ => .compute rfl .nil
  case unary.unary p op e p' op' e' =>
    simp only [formBelow, Form.unary.injEq] at hform
    obtain ⟨rfl, hform⟩ := hform
    have he := paired_emitted e e' ⟨hform, hlookups, hp1, hp2, hcalls, hdepth⟩ n
    refine he.snoc fun _ _ => ?_
    cases op with
    | pos => exact .nil
    | neg | not => exact .compute rfl .nil
  case apply.apply p fn e p' fn' e' =>
    simp only [formBelow, Form.apply.injEq] at hform
    obtain ⟨rfl, hform⟩ := hform
    have he := paired_emitted e e' ⟨hform, hlookups, hp1, hp2, hcalls, hdepth⟩ n
    exact he.snoc fun _ _ => .compute (by cases fn <;> rfl) .nil
  case assign.assign p a e p' b e' =>
    simp only [formBelow, Form.assign.injEq] at hform
    have he := paired_emitted e e' ⟨hform.2, hlookups, hp1.2, hp2.2, hcalls, hdepth⟩ n
    refine he.snoc fun _ _ => .named (by decide) (Alike.seen ?_ hp1.1 hp2.1 hform.1 _) .nil
    omega
  case item.item p a e bracket p' b e' bracket' =>
    simp only [formBelow, Form.item.injEq] at hform
    simp only [lookups, cons.injEq] at hlookups
    obtain ⟨rfl, hlookups⟩ := hlookups
    have he := paired_emitted e e' ⟨hform.2, hlookups, hp1.2, hp2.2, hcalls, hdepth⟩ n
    exact he.snoc fun _ _ => .calculates rfl .nil
  case binary.binary p op l r p' op' l' r' =>
    simp only [formBelow, Form.binary.injEq] at hform
    obtain ⟨rfl, hform, hform'⟩ := hform
    obtain ⟨hlookups, hlookups'⟩ := append_inj hlookups (length_lookups_eq hform)
    rw [calls] at hcalls
    rw [sumDepth] at hdepth
    have hl := paired_emitted l l' ⟨hform, hlookups, hp1.1, hp2.1,
      fun c hc => hcalls c (by simp [hc]), by omega⟩ n
    have hr := paired_emitted r r' ⟨hform', hlookups', hp1.2, hp2.2,
      fun c hc => hcalls c (by simp [hc]), by omega⟩ (l.emitted names n).labels
    rw [emitted, emitted, ← hl.labels]
    exact (hl.append hr).snoc fun _ _ => .compute (by cases op <;> rfl) .nil
  case extremum.extremum p greatest es p' greatest' es' =>
      simp only [formBelow, Form.extremum.injEq] at hform
      obtain ⟨rfl, hform⟩ := hform
      have halike : AlikeAll names σ es es' := ⟨hform, hlookups, hp1, hp2, hcalls, hdepth⟩
      rw [emitted, emitted, ← halike.length_eq]
      exact (pairedAll_emitted es es' halike n).snoc fun _ _ =>
      .compute (by cases greatest <;> rfl) .nil
  case call.call p name es p' name' es' =>
    simp only [formBelow, Form.call.injEq] at hform
    obtain ⟨rfl, hform⟩ := hform
    rw [calls] at hcalls
    have halike : AlikeAll names σ es es' := ⟨hform, hlookups, hp1.2, hp2.2,
      fun c hc => hcalls c (mem_cons_of_mem _ hc), hdepth⟩
    obtain ⟨command, hcommand, hcalculates⟩ := hcalls _ mem_cons_self
    rw [emitted, emitted, ← halike.length_eq, callLine, hcommand]
    exact (pairedAll_emitted es es' halike n).snoc fun _ _ => .calculates hcalculates .nil
  case conditional.conditional p c y no p' c' y' no' =>
    simp only [formBelow, Form.conditional.injEq] at hform
    obtain ⟨hc, hy, hn⟩ := hform
    obtain ⟨hlookups, hlookupsN⟩ := append_inj hlookups (by
      rw [length_append, length_append, length_lookups_eq hc, length_lookups_eq hy])
    obtain ⟨hlookupsC, hlookupsY⟩ := append_inj hlookups (length_lookups_eq hc)
    rw [calls] at hcalls
    rw [sumDepth] at hdepth
    have hpc := paired_emitted c c' ⟨hc, hlookupsC, hp1.1, hp2.1,
      fun c hc => hcalls c (by simp [hc]), by omega⟩ (n + 2)
    have hpn := paired_emitted no no' ⟨hn, hlookupsN, hp1.2.2, hp2.2.2,
      fun c hc => hcalls c (by simp [hc]), by omega⟩ (c.emitted names (n + 2)).labels
    nth_rewrite 2 [hpc.labels] at hpn
    have hpy := paired_emitted y y' ⟨hy, hlookupsY, hp1.2.1, hp2.2.1,
      fun c hc => hcalls c (by simp [hc]), by omega⟩
      (no.emitted names (c.emitted names (n + 2)).labels).labels
    nth_rewrite 2 [hpn.labels] at hpy
    exact .conditional n hpc hpn hpy
  case sigma.sigma p i first last step body p' j first' last' step' body' =>
    simp only [formBelow, Form.sigma.injEq] at hform
    obtain ⟨hfirst, hlast, hstep, hbody⟩ := hform
    rw [lookups, lookups, append_assoc, append_assoc, append_assoc, append_assoc] at hlookups
    obtain ⟨hlookupsF, hlookups⟩ := append_inj hlookups (length_lookups_eq hfirst)
    obtain ⟨hlookupsL, hlookups⟩ := append_inj hlookups (length_lookups_eq hlast)
    obtain ⟨hlookupsS, hlookupsB⟩ := append_inj hlookups (length_lookups_eq hstep)
    obtain ⟨hi, hpF, hpL, hpS, hpB⟩ := hp1
    obtain ⟨hj, hpF', hpL', hpS', hpB'⟩ := hp2
    rw [calls] at hcalls
    rw [sumDepth] at hdepth
    have hL := paired_emitted last last' ⟨hlast, hlookupsL, hpL, hpL',
      fun c hc => hcalls c (by simp [hc]), by omega⟩ (n + 3)
    have hS := paired_emitted step step' ⟨hstep, hlookupsS, hpS, hpS',
      fun c hc => hcalls c (by simp [hc]), by omega⟩ (last.emitted names (n + 3)).labels
    nth_rewrite 2 [hL.labels] at hS
    have hF := paired_emitted first first' ⟨hfirst, hlookupsF, hpF, hpF',
      fun c hc => hcalls c (by simp [hc]), by omega⟩
      (step.emitted names (last.emitted names (n + 3)).labels).labels
    nth_rewrite 2 [hS.labels] at hF
    have hB := paired_emitted (σ := (i, j) :: σ) body body' ⟨hbody, hlookupsB, hpB, hpB',
      fun c hc => hcalls c (by simp [hc]), by rw [length_cons]; omega⟩
      (first.emitted names (step.emitted names (last.emitted names (n + 3)).labels).labels).labels
    nth_rewrite 2 [hF.labels] at hB
    exact .sigma n hi hj hL hS hF hB
  all_goals simp [formBelow, IsCore] at hform hcore

theorem pairedAll_emitted {σ : Scope} (es1 es2 : List Expr) (h : AlikeAll names σ es1 es2)
    (n : Nat) : (emittedAll names es1 n).Paired .all σ (emittedAll names es2 n) := by
  obtain ⟨hform, hlookups, hp1, hp2, hcalls, hdepth⟩ := h
  cases es1 with
  | nil =>
    cases es2 with
    | nil => exact .single n fun _ _ => .nil
    | cons e' es' => simp [formBelowAll] at hform
  | cons e es =>
    cases es2 with
    | nil => simp [formBelowAll] at hform
    | cons e' es' =>
      simp only [formBelowAll, cons.injEq] at hform
      obtain ⟨hhead, htail⟩ := append_inj hlookups (length_lookups_eq hform.1)
      rw [callsAll] at hcalls
      rw [sumDepthAll] at hdepth
      have he := paired_emitted e e' ⟨hform.1, hhead, hp1.1, hp2.1,
        fun c hc => hcalls c (by simp [hc]), by omega⟩ n
      have hes := pairedAll_emitted es es' ⟨hform.2, htail, hp1.2, hp2.2,
        fun c hc => hcalls c (by simp [hc]), by omega⟩ (e.emitted names n).labels
      rw [emittedAll, emittedAll, ← he.labels]
      exact he.append hes

end

end

end Expr

end Keystroke
