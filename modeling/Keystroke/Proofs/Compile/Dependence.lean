import Keystroke.Proofs.Algebra.Isolable
import Keystroke.Proofs.Fingerprint.Behaviour

set_option autoImplicit false

/-! # What a program depends on

The program of an expression looks at the variables that occur free in it, at what it asks for by
`G` and `ITEM` (`Expr.asks`), at the name that is solved for and, where a call stands for that, at
the last X. Two sessions that share these keep in lockstep when they run the program
(`Expr.Shared.shows_evaluate`). So the parameters of an equation are all that its value depends on,
and where they all have values none is missing (`Equation.parameters_suffice`); and what an equation
gives for a variable does not depend on that variable (`Expr.evaluate_isolate_eq`). -/

namespace Keystroke

open Operation Session

/-! ## What an expression asks for -/

/-- A real number or a matrix that is looked up among the variables of a session. -/
inductive Lookup where
  | real (name : Bytes)
  | matrix (name : Bytes)
deriving DecidableEq

/-- The variables have the same there, or neither has anything. -/
def Lookup.Agrees (v w : Variables) : Lookup → Prop
  | real name => v.reals.find? name = w.reals.find? name
  | matrix name => v.matrices.find? name = w.matrices.find? name

namespace Expr

mutual

/-- What an expression asks for by `G`, unless the name is bound, and by `ITEM`. -/
def asks (bound : List Bytes) : Expr → List Lookup
  | literal _ _ _ | var _ _ | solving _ _ => []
  | fetch _ n => if bound.contains n then [] else [.real n]
  | item _ n e _ => .matrix n :: e.asks bound
  | unary _ _ e | group _ e | apply _ _ e | assign _ _ e | tagged _ _ e => e.asks bound
  | binary _ _ l r => l.asks bound ++ r.asks bound
  | extremum _ _ es | call _ _ es => asksAll bound es
  | conditional _ c y n => c.asks bound ++ y.asks bound ++ n.asks bound
  | sigma _ index a b s e =>
    a.asks bound ++ b.asks bound ++ s.asks bound ++ e.asks (index :: bound)

/-- What several expressions ask for. -/
def asksAll (bound : List Bytes) : List Expr → List Lookup
  | [] => []
  | e :: es => e.asks bound ++ asksAll bound es

end

end Expr

/-! ## Sharing what is looked up -/

namespace Sharing

/-- Sessions that agree on the given lookups. -/
def reading (L : Lookup → Prop) (LastX : Prop) (E : Error → Error → Prop) (hE : ∀ e, E e e) :
    Sharing where
  Vars v w := ∀ l, L l → l.Agrees v w
  Errors := E
  Real n := L (.real n)
  Matrix n := L (.matrix n)
  LastX := LastX
  fetch {v w name} h hn := by
    have hreal : v.reals.find? name = w.reals.find? name := h _ hn
    exact ⟨by rw [Variables.fetch, Variables.fetch, hreal], fun e _ => hE e⟩
  item {v w name} h hn index := by
    have hmatrix : v.matrices.find? name = w.matrices.find? name := h _ hn
    exact ⟨by rw [Variables.item, Variables.item, hmatrix], fun e _ => hE e⟩
  store {v w} h name x l hl := by
    have hagrees := h l hl
    cases l with
    | real n =>
      simp only [Lookup.Agrees, Variables.store, Assoc.find?_put] at hagrees ⊢
      rw [hagrees]
    | matrix n =>
      simp only [Lookup.Agrees, Variables.store, Assoc.find?_remove] at hagrees ⊢
      rw [hagrees]
  ordinary _ := hE _

/-- A session beside itself in which the given names have values. -/
def found (P : Bytes → Prop) : Sharing where
  Vars v w := v = w ∧ ∀ n, P n → (v.reals.find? n).isSome
  Errors e _ := .nonexistent ∉ e.causes
  Real := P
  Matrix _ := False
  LastX := True
  fetch {v w name} h hn := by
    obtain ⟨x, hx⟩ := Option.isSome_iff_exists.1 (h.2 name hn)
    refine ⟨by rw [h.1], fun e he => ?_⟩
    rw [Variables.fetch, hx] at he
    cases he
  item _ h := h.elim
  store {v w} h name x := by
    refine ⟨by rw [h.1], fun n hn => ?_⟩
    simp only [Variables.store, Assoc.find?_put]
    split
    · rfl
    · exact h.2 n hn
  ordinary h := h

/-- A value that is looked up is shared. -/
def Has (S : Sharing) : Lookup → Prop
  | .real name => S.Real name
  | .matrix name => S.Matrix name

end Sharing

/-! ## Programs in lockstep with themselves -/

/-- The indices of sums in a program beside itself. -/
def Scope.twice (bound : List Bytes) : Scope := bound.map fun n => (n, n)

theorem Scope.same_twice {P : Bytes → Prop} {bound : List Bytes} {n : Bytes}
    (h : n ∉ bound → P n) : (twice bound).Same P n n := by
  induction bound with
  | nil => exact ⟨rfl, h (by simp)⟩
  | cons i bound ih =>
    by_cases hn : n = i
    · exact .inl ⟨hn, hn⟩
    · exact .inr ⟨hn, hn, ih fun hout => h (by simp [hn, hout])⟩

namespace Expr

/-- All that the program of the expression looks at within sums with these indices is shared. -/
structure Shared (S : Sharing) (names : NameTable) (bound : List Bytes) (e : Expr) : Prop where
  proper : e.Proper
  vars : ∀ n ∈ e.freeNames bound, S.Real n
  asks : ∀ l ∈ e.asks bound, S.Has l
  calls : ∀ c ∈ e.calls, ∃ command, names.command? c.1 c.2 = some command ∧
    command.isOrdinary = true ∧ S.Admits (.plain command)

section

variable {S : Sharing} {names : NameTable} {bound : List Bytes} {e : Expr}

theorem Shared.part (h : Shared S names bound e) {inner : List Bytes} {c : Expr} (hp : c.Proper)
    (hvars : c.freeNames inner ⊆ e.freeNames bound) (hasks : c.asks inner ⊆ e.asks bound)
    (hcalls : c.calls ⊆ e.calls) : Shared S names inner c :=
  ⟨hp, fun n hn => h.vars n (hvars hn), fun l hl => h.asks l (hasks hl),
    fun c hc => h.calls c (hcalls hc)⟩

mutual

theorem paired_self (bound : List Bytes) (e : Expr) (h : Shared S names bound e) (n : Nat) :
    (e.emitted names n).Paired S (Scope.twice bound) (e.emitted names n) := by
  have hp := h.proper
  cases e with
  | literal p v text => exact .single n fun _ _ => .number _ _ _ .nil
  | var p a =>
    refine .single n fun _ _ =>
      .named (by decide) (.inl ⟨hp, hp, Scope.same_twice fun ha _ => ?_⟩) .nil
    exact h.vars a (by simp [freeNames, ha])
  | fetch p a =>
    refine .single n fun _ _ =>
      .named (by decide) (.inl ⟨hp, hp, Scope.same_twice fun ha _ => ?_⟩) .nil
    exact h.asks (.real a) (by simp [asks, ha])
  | solving p a => exact .single n fun _ _ => .compute rfl .nil
  | group p e | tagged p name e => exact paired_self bound e ⟨hp, h.vars, h.asks, h.calls⟩ n
  | unary p op e =>
    refine (paired_self bound e ⟨hp, h.vars, h.asks, h.calls⟩ n).snoc fun _ _ => ?_
    cases op with
    | pos => exact .nil
    | neg | not => exact .compute rfl .nil
  | apply p fn e =>
    exact (paired_self bound e ⟨hp, h.vars, h.asks, h.calls⟩ n).snoc fun _ _ =>
      .compute (by cases fn <;> rfl) .nil
  | assign p a e =>
    refine (paired_self bound e ⟨hp.2, h.vars, h.asks, h.calls⟩ n).snoc fun _ _ =>
      .named (by decide) (.inl ⟨hp.1, hp.1, Scope.same_twice fun _ hsto => ?_⟩) .nil
    exact absurd rfl hsto
  | item p a e bracket =>
    have hasks : ∀ l ∈ e.asks bound, S.Has l := fun l hl => h.asks l (List.mem_cons_of_mem _ hl)
    refine (paired_self bound e ⟨hp.2, h.vars, hasks, h.calls⟩ n).snoc fun _ _ =>
      .calculate rfl rfl ?_ .nil
    exact h.asks (.matrix a) List.mem_cons_self
  | binary p op l r =>
    have hl := paired_self bound l (h.part hp.1 (by simp [freeNames]) (by simp [asks])
      (by simp [calls])) n
    have hr := paired_self bound r (h.part hp.2 (by simp [freeNames]) (by simp [asks])
      (by simp [calls])) (l.emitted names n).labels
    exact (hl.append hr).snoc fun _ _ => .compute (by cases op <;> rfl) .nil
  | extremum p greatest es =>
    exact (pairedAll_self bound es p greatest h n).snoc fun _ _ =>
      .compute (by cases greatest <;> rfl) .nil
  | call p name es =>
    obtain ⟨command, hcommand, hordinary, hadmits⟩ := h.calls (name, es.length) (by simp [calls])
    have hes := pairedAll_self bound es p true (h.part hp.2 (by simp [freeNames]) (by simp [asks])
      (by simp [calls])) n
    refine hes.snoc fun _ _ => .calculate rfl rfl ?_ .nil
    rw [callLine, hcommand, Instr.stored_plain]
    · exact hadmits
    · rintro rfl
      exact absurd hordinary (by decide)
  | conditional p c y no =>
    have hc := paired_self bound c (h.part hp.1 (by simp [freeNames]) (by simp [asks])
      (by simp [calls])) (n + 2)
    have hn := paired_self bound no (h.part hp.2.2 (by simp [freeNames]) (by simp [asks])
      (by simp [calls])) (c.emitted names (n + 2)).labels
    have hy := paired_self bound y (h.part hp.2.1 (by simp [freeNames]) (by simp [asks])
      (by simp [calls])) (no.emitted names (c.emitted names (n + 2)).labels).labels
    exact .conditional n hc hn hy
  | sigma p i first last step body =>
    obtain ⟨hi, hpF, hpL, hpS, hpB⟩ := hp
    have hL := paired_self bound last (h.part hpL (by simp [freeNames]) (by simp [asks])
      (by simp [calls])) (n + 3)
    have hthird : ∀ {α : Type} (a b c d : List α), c ⊆ a ++ b ++ c ++ d :=
      fun a b c d x hx => by simp [hx]
    have hS := paired_self bound step (h.part hpS (hthird ..) (hthird ..) (hthird ..))
      (last.emitted names (n + 3)).labels
    have hF := paired_self bound first (h.part hpF (by simp [freeNames]) (by simp [asks])
      (by simp [calls])) (step.emitted names (last.emitted names (n + 3)).labels).labels
    have hB := paired_self (i :: bound) body (h.part hpB (List.subset_append_right _ _)
      (List.subset_append_right _ _) (List.subset_append_right _ _))
      (first.emitted names (step.emitted names (last.emitted names (n + 3)).labels).labels).labels
    exact .sigma n hi hi hL hS hF hB

theorem pairedAll_self (bound : List Bytes) (es : List Expr) (p : Nat) (greatest : Bool)
    (h : Shared S names bound (.extremum p greatest es)) (n : Nat) :
    (emittedAll names es n).Paired S (Scope.twice bound) (emittedAll names es n) := by
  cases es with
  | nil => exact .single n fun _ _ => .nil
  | cons e es =>
    have he := paired_self bound e (h.part h.proper.1 (by simp [freeNames, freeNamesAll])
      (by simp [asks, asksAll]) (by simp [calls, callsAll])) n
    have hes := pairedAll_self bound es p greatest (h.part h.proper.2
      (by simp [freeNames, freeNamesAll]) (by simp [asks, asksAll]) (by simp [calls, callsAll]))
      (e.emitted names n).labels
    exact he.append hes

end

/-- The program of an expression shows the same in sessions that share what it looks at. -/
theorem Shared.shows_evaluate (h : Shared S names [] e) (hsize : e.codeSize names < 2147483648)
    {s1 s2 store1 store2 : Store} {ref1 ref2 : ProgramRef}
    (hrun1 : e.compile names s1 = .ok ref1 store1) (hrun2 : e.compile names s2 = .ok ref2 store2)
    (herrors : ∀ {cause : Error} (n : Nat) (c : Command), S.Errors cause cause →
      S.Errors (.atLine ref1 n c cause) (.atLine ref2 n c cause))
    {t1 t2 : Session} (hstore1 : store1.Renoted t1.store) (hstore2 : store2.Renoted t2.store)
    (ht1 : t1.calls.WellFormed) (ht2 : t2.calls.WellFormed) (hvars : S.Vars t1.vars t2.vars)
    (hlastX : S.LastX → t1.lastX = t2.lastX) (hsolving : t1.solvingFor = t2.solvingFor)
    (hlimit : t1.stepLimit = t2.stepLimit) (hmax : t1.calls.max = t2.calls.max)
    (inputs : List Float) (cancelled : Bool) :
    Session.Shows S.Vars S.Errors (evaluate ref1 inputs cancelled t1)
      (evaluate ref2 inputs cancelled t2) := by
  have hcalls : ∀ c ∈ e.calls, (callLine names c.1 c.2).Storable := by
    intro c hc
    obtain ⟨command, hcommand, hordinary, -⟩ := h.calls c hc
    rw [callLine, hcommand]
    exact Instr.storable_plain hordinary
  obtain ⟨code, hresolve, hcode, hsmall⟩ := exists_code hcalls h.proper hsize
  obtain ⟨j1, -, rfl, hhosts1, hloaded1, -⟩ := exists_job hresolve hcode hsmall hrun1
  obtain ⟨j2, -, rfl, hhosts2, hloaded2, -⟩ := exists_job hresolve hcode hsmall hrun2
  obtain ⟨t, hcode1, hcode2, hwhole⟩ := (paired_self [] e h 0).exists_twinCode hresolve hresolve
    (length_lt_of_size hsmall)
  exact (hwhole.twin herrors (hcode1 ▸ hhosts1) (hcode2 ▸ hhosts2)).shows_evaluate ht1 ht2
    (hloaded1.noted hstore1) (hloaded2.noted hstore2) hvars hlastX hsolving hlimit hmax inputs
    cancelled

end

end Expr

/-! ## Parameters -/

namespace Session

variable {V : Variables → Variables → Prop} {E : Error → Error → Prop}
  {r1 r2 : EStateM.Result Error Session Float}

/-- The value, or the classes of the error. -/
def verdict (r : EStateM.Result Error Session Float) : Except (List Cause) Float :=
  (answer r).1.mapError Error.causes

theorem Shows.verdict_eq (h : Shows V (fun e e' => e.causes = e'.causes) r1 r2) :
    verdict r1 = verdict r2 := by
  cases h with
  | ok => rfl
  | error he => exact congrArg Except.error he

/-- The session after so many steps, or after fewer when it stops or one fails. -/
def ahead : Nat → Session → Session
  | 0, s => s
  | n + 1, s =>
    if s.running = true ∧ s.stepLimit ≤ 0 then
      match step s with
      | .ok _ t => ahead n t
      | .error _ _ => s
    else s

theorem reaches_ahead (n : Nat) (s : Session) : s.Reaches (s.ahead n) := by
  induction n generalizing s with
  | zero => exact .refl
  | succ n ih =>
    rw [ahead]
    split
    · next h =>
      cases hstep : step s with
      | ok _ t => exact .head ⟨h.1, h.2, hstep⟩ (ih t)
      | error _ _ => exact .refl
    · exact .refl

/-- What an evaluation of so many steps gives, if it stops by then. -/
def evaluateWithin (n : Nat) (ref : ProgramRef) (inputs : List Float) (s : Session) :
    Option Float :=
  let start : Machine Unit := do
    reset
    modify fun s => { s with stack := inputs.reverse }
    call ref
  match start s with
  | .ok _ t => if (t.ahead n).running then none else (t.ahead n).stack.head?
  | .error _ _ => none

theorem verdict_of_evaluateWithin {n : Nat} {s : Session} {ref : ProgramRef} {inputs : List Float}
    {v : Float} (h : evaluateWithin n ref inputs s = some v) :
    verdict (evaluate ref inputs false s) = .ok v := by
  simp only [evaluateWithin] at h
  split at h
  · next t hstart =>
    split at h
    · cases h
    · next hstop =>
      obtain ⟨m, hm⟩ := runFrom_of_reaches (reaches_ahead n t) 0
      have hrun : run false t = .ok () (t.ahead n) := by
        simp [run, hm, runFrom_of_stopped (Bool.eq_false_iff.2 hstop)]
      obtain ⟨rest, hstack⟩ := List.head?_eq_some_iff.1 h
      have hevaluate : evaluate ref inputs false s = .ok v (t.ahead n) := by
        have hassoc : evaluate ref inputs false = ((do
            reset
            modify fun s => { s with stack := inputs.reverse }
            call ref : Machine Unit) >>= fun _ => run false >>= fun _ => top) := by
          simp only [evaluate, bind_assoc]
        rw [hassoc, bind_ok hstart, bind_ok hrun, top_of_cons hstack]
      rw [hevaluate]
      rfl
  · cases h

end Session

namespace Equation

variable {compat : Bool} {source : Bytes} {e : Equation} {names : NameTable}

/-- The value of an equation depends on its parameters, on what it asks for by `G` and `ITEM` and on
    the name that is solved for; where it asks for nothing and all parameters have values, no
    variable is missing. The equation has no call that jumps, tests, or looks at a matrix or the
    last X. -/
theorem parameters_suffice (h : parse compat source = .ok e)
    (hcalls : ∀ c ∈ e.tree.calls, ∃ command, names.command? c.1 c.2 = some command ∧
      command.computes = true) (hsize : e.tree.codeSize names < 2147483648)
    {s1 s2 t1 t2 : Session} {f1 f2 : Equation} (hs1 : s1.calls.Arises) (hs2 : s2.calls.Arises)
    (hcompile1 : Session.edit (e.compile names) s1 = .ok f1 t1)
    (hcompile2 : Session.edit (e.compile names) s2 = .ok f2 t2) (inputs : List Float)
    (cancelled : Bool) :
    ((∀ n ∈ e.parameters, (Lookup.real n).Agrees s1.vars s2.vars) →
      (∀ l ∈ e.tree.asks [], l.Agrees s1.vars s2.vars) → s1.solvingFor = s2.solvingFor →
      s1.stepLimit = s2.stepLimit → s1.calls.max = s2.calls.max →
      Session.verdict (Session.evaluate f1.program inputs cancelled t1)
        = Session.verdict (Session.evaluate f2.program inputs cancelled t2)) ∧
    ((∀ n ∈ e.parameters, (s1.vars.reals.find? n).isSome) → e.tree.asks [] = [] →
      ∀ causes, Session.verdict (Session.evaluate f1.program inputs cancelled t1) = .error causes →
        .nonexistent ∉ causes) := by
  obtain ⟨hfits, -, hprogram⟩ := fits_of_parse h
  obtain ⟨store1, hrun1, hfollows1⟩ := exists_of_edit_eq_ok hs1.wellFormed hcompile1
  obtain ⟨store2, hrun2, hfollows2⟩ := exists_of_edit_eq_ok hs2.wellFormed hcompile2
  have htree1 := compile_tree hprogram hrun1
  have htree2 := compile_tree hprogram hrun2
  have hadmitted : ∀ (S : Sharing), ∀ c ∈ e.tree.calls, ∃ command,
      names.command? c.1 c.2 = some command ∧ command.isOrdinary = true ∧
        S.Admits (.plain command) := by
    intro S c hc
    obtain ⟨command, hcommand, hcomputes⟩ := hcalls c hc
    obtain ⟨hordinary, haction⟩ := Bool.and_eq_true_iff.1 hcomputes
    exact ⟨command, hcommand, hordinary, S.admits_of_computes haction⟩
  have hparameter : ∀ n ∈ e.tree.freeNames [], n ∈ e.parameters := fun n hn =>
    Expr.mem_firstCopies.2 ⟨hn, by simp⟩
  constructor
  · intro hparameters hasks hsolving hlimit hmax
    let S : Sharing := .reading
      (fun l => (∃ n ∈ e.parameters, l = .real n) ∨ l ∈ e.tree.asks []) False
      (fun a b => a.causes = b.causes) fun _ => rfl
    have hshared : Expr.Shared S names [] e.tree :=
      { proper := hfits.proper
        vars := fun n hn => .inl ⟨n, hparameter n hn, rfl⟩
        asks := fun l hl => by cases l <;> exact .inr hl
        calls := hadmitted S }
    have hvars : S.Vars t1.vars t2.vars := by
      rw [hfollows1.vars, hfollows2.vars]
      rintro l (⟨n, hn, rfl⟩ | hl)
      · exact hparameters n hn
      · exact hasks l hl
    exact (hshared.shows_evaluate hsize htree1 htree2 (fun n c hcause => hcause) hfollows1.store
      hfollows2.store hfollows1.calls hfollows2.calls hvars False.elim
      (hfollows1.solvingFor.trans (hsolving.trans hfollows2.solvingFor.symm))
      (hfollows1.stepLimit.trans (hlimit.trans hfollows2.stepLimit.symm))
      (hfollows1.max.trans (hmax.trans hfollows2.max.symm)) inputs cancelled).verdict_eq
  · intro hvalues hasks causes hcauses
    have hshared : Expr.Shared (.found (· ∈ e.parameters)) names [] e.tree :=
      { proper := hfits.proper
        vars := hparameter
        asks := by simp [hasks]
        calls := hadmitted _ }
    have hself := hshared.shows_evaluate hsize htree1 htree1 (fun n c hcause => hcause)
      hfollows1.store hfollows1.store hfollows1.calls hfollows1.calls
      ⟨rfl, by rw [hfollows1.vars]; exact hvalues⟩ (fun _ => rfl) rfl rfl rfl inputs cancelled
    generalize evaluate f1.program inputs cancelled t1 = r at hcauses hself
    cases hself with
    | ok => cases hcauses
    | error hcause => exact Except.error.inj hcauses ▸ hcause

/-- `Expr.twoVariables` with one more variable and another last X. -/
def threeVariables : Session :=
  { Expr.twoVariables with vars := Expr.twoVariables.vars.store (utf8 "C") 1, lastX := 1 }

/-- A sum that has nothing to do with these. -/
theorem parameters_suffice_sum :
    ∃ e f1 f2 t1 t2, parse false (utf8 "IP(SIGMA(I:A:B:A:I))") = .ok e ∧
      Session.edit (e.compile .standard) Expr.twoVariables = .ok f1 t1 ∧
      Session.edit (e.compile .standard) threeVariables = .ok f2 t2 ∧
      Session.verdict (Session.evaluate f1.program [0] false t1)
        = Session.verdict (Session.evaluate f2.program [0] false t2) ∧
      ∀ causes, Session.verdict (Session.evaluate f1.program [0] false t1) = .error causes →
        .nonexistent ∉ causes := by
  obtain ⟨e, h, hIP, hsize, hasks, hagree, hvalues⟩ :
      ∃ e, parse false (utf8 "IP(SIGMA(I:A:B:A:I))") = .ok e ∧ e.tree.calls = [(utf8 "IP", 1)] ∧
        e.tree.codeSize .standard < 2147483648 ∧ e.tree.asks [] = [] ∧
        (∀ n ∈ e.parameters, Expr.twoVariables.vars.reals.find? n
          = threeVariables.vars.reals.find? n) ∧
        ∀ n ∈ e.parameters, (Expr.twoVariables.vars.reals.find? n).isSome :=
    ⟨_, rfl, by decide +kernel, by decide +kernel, by decide +kernel, by decide +kernel,
      by decide +kernel⟩
  have hcalls : e.tree.Calculates .standard := .standard (by rw [hIP]; decide)
  have hs : Expr.twoVariables.calls.Arises := .new 1024
  have hstore : Expr.twoVariables.store.Unlimited := ⟨by decide, by decide⟩
  obtain ⟨f1, t1, hcompile1⟩ := exists_compile h hcalls hsize hs.wellFormed hstore
  obtain ⟨f2, t2, hcompile2⟩ :=
    exists_compile (s := threeVariables) h hcalls hsize hs.wellFormed hstore
  have hs2 : threeVariables.calls.Arises := hs
  obtain ⟨hsame, hfound⟩ := parameters_suffice h (by rw [hIP]; simpa using ⟨_, rfl, rfl⟩) hsize hs
    hs2 hcompile1 hcompile2 [0] false
  exact ⟨e, f1, f2, t1, t2, h, hcompile1, hcompile2,
    hsame hagree (by simp [hasks]) rfl rfl rfl, hfound hvalues hasks⟩

/-- A call that stands for the last X, which is no parameter. -/
theorem verdict_ne_of_lastX : ∃ e f t, parse false (utf8 "F()") = .ok e ∧ e.parameters = [] ∧
    e.tree.asks [] = [] ∧
    Session.edit (e.compile [(utf8 "F", ⟨.lastX, 0⟩)]) Expr.twoVariables = .ok f t ∧
    Session.verdict (Session.evaluate f.program [0] false { t with lastX := 0 })
      ≠ verdict (evaluate f.program [0] false { t with lastX := 1 }) := by
  obtain ⟨e, f, t, h, hparameters, hasks, hcompile, hzero, hone⟩ :
      ∃ e f t, parse false (utf8 "F()") = .ok e ∧ e.parameters = [] ∧ e.tree.asks [] = [] ∧
        edit (e.compile [(utf8 "F", ⟨.lastX, 0⟩)]) Expr.twoVariables = .ok f t ∧
        evaluateWithin 3 f.program [0] { t with lastX := 0 } = some 0 ∧
        evaluateWithin 3 f.program [0] { t with lastX := 1 } = some 1 :=
    ⟨_, _, _, rfl, by decide +kernel, by decide +kernel, rfl, by decide +kernel, by decide +kernel⟩
  refine ⟨e, f, t, h, hparameters, hasks, hcompile, ?_⟩
  rw [verdict_of_evaluateWithin hzero, verdict_of_evaluateWithin hone]
  decide +kernel

end Equation

/-! ## Solutions -/

namespace Expr

variable {compat : Bool} {name text : Bytes} {e r : Expr} {names : NameTable}

theorem ne_nil_of_undo {side : Expr} {rank : Rank} {c : Context} (he : e.Fits compat rank c)
    (h : undo name e side = .ok r) : name ≠ [] := by
  fun_induction undo name e side generalizing rank c with
  | case1 p side =>
    obtain ⟨b, rest, -, rfl, -⟩ := he.text.exists_start
    simp
  | case3 p e side ih => exact ih he h
  | case4 => exact he.elim
  | case5 p e side ih | case6 p e side ih => exact he.2.elim (ih ·.2 h) (ih ·.2 h)
  | case8 p op l r side _ _ _ ih => exact ih he.2.2.2.2.2 h
  | case10 p op l r side _ _ _ ih => exact ih he.2.2.2.2.1 h
  | case12 p fn e side _ _ ih => exact ih he.2 h
  | _ => cases h

/-- What an equation gives for a variable does not depend on the value of that variable: the program
    compiled from it gives the same value or the same error, whatever is stored under the name. The
    name is asked for neither by `G` nor by `ITEM`, and no call is a jump or a test. -/
theorem evaluate_isolate_eq (h : parse compat text = .ok e) (hr : e.isolate name = .ok r)
    (hcalls : r.Calculates names) (hsize : r.codeSize names < 2147483648)
    (hreal : .real name ∉ r.asks []) (hmatrix : .matrix name ∉ r.asks []) {s t : Session}
    {ref : ProgramRef} (hs : s.calls.Arises)
    (hcompile : Session.edit (r.compile names) s = .ok ref t)
    {v w : Variables} (hvars : ∀ n, n ≠ name →
      v.reals.find? n = w.reals.find? n ∧ v.matrices.find? n = w.matrices.find? n)
    (inputs : List Float) (cancelled : Bool) :
    Session.verdict (Session.evaluate ref inputs cancelled { t with vars := v })
      = verdict (evaluate ref inputs cancelled { t with vars := w }) := by
  have hfits := (fitsEquation_of_parse h).untagged
  have hocc : e.occurrence name = .single := by
    unfold isolate at hr
    split at hr
    · cases hr
    · cases hr
    · assumption
  obtain ⟨side, other, hside⟩ := exists_rearranged hfits hocc
  have hname := ne_nil_of_undo hside.fits (hside.isolate_eq.symm.trans hr)
  let S : Sharing := .reading (fun l => l ≠ .real name ∧ l ≠ .matrix name) True
    (fun a b => a.causes = b.causes) fun _ => rfl
  have hshared : Shared S names [] r :=
    { proper := proper_of_isolate h hr
      vars := fun n hn => by
        have hvar := (mem_vars_isolate hfits hocc hr n).1 (mem_firstCopies.2 ⟨hn, by simp⟩)
        exact ⟨by simpa using hvar.2, by simp⟩
      asks := fun l hl => by
        have hl : l ≠ .real name ∧ l ≠ .matrix name :=
          ⟨fun heq => hreal (heq ▸ hl), fun heq => hmatrix (heq ▸ hl)⟩
        cases l <;> exact hl
      calls := fun c hc => by
        obtain ⟨command, hcommand, hcalculates⟩ := hcalls c hc
        obtain ⟨hordinary, haction⟩ := Bool.and_eq_true_iff.1 hcalculates
        refine ⟨command, hcommand, hordinary, S.admits_of_calculates haction ?_ trivial⟩
        exact ⟨by simp, by simpa [Instr.plain] using hname.symm⟩ }
  obtain ⟨store, hrun, hfollows⟩ := exists_of_edit_eq_ok hs.wellFormed hcompile
  have hagree : S.Vars v w := by
    rintro (n | n) ⟨hn, hn'⟩
    · exact (hvars n (by simpa using hn)).1
    · exact (hvars n (by simpa using hn')).2
  have hstore (u : Variables) : store.Renoted ({ t with vars := u } : Session).store :=
    hfollows.store
  exact (hshared.shows_evaluate hsize hrun hrun (fun _ _ => id) (hstore v) (hstore w) hfollows.calls
    hfollows.calls hagree (fun _ => rfl) rfl rfl rfl inputs cancelled).verdict_eq

/-- The variable has the name of an index, too. -/
theorem evaluate_isolate_eq_sum :
    ∃ e r ref t, parse false (utf8 "SIGMA(X:1:2:1:X)+X=A") = .ok e ∧
      e.isolate (utf8 "X") = .ok r ∧ Session.edit (r.compile .standard) twoVariables = .ok ref t ∧
      Session.verdict (Session.evaluate ref [0] false { t with
        vars := t.vars.store (utf8 "X") 1 }) = verdict (evaluate ref [0] false t) := by
  obtain ⟨e, h, r, hr, hnone, hsize, hasks⟩ :
      ∃ e, parse false (utf8 "SIGMA(X:1:2:1:X)+X=A") = .ok e ∧ ∃ r, e.isolate (utf8 "X") = .ok r ∧
        r.calls = [] ∧ r.codeSize .standard < 2147483648 ∧ r.asks [] = [] :=
    ⟨_, rfl, _, rfl, by decide +kernel, by decide +kernel, by decide +kernel⟩
  have hcalls : r.Calculates .standard := by simp [Calculates, hnone]
  have hs : twoVariables.calls.Arises := .new 1024
  obtain ⟨code, hresolve, hcode, hsmall⟩ :=
    exists_code hcalls.storable (proper_of_isolate h hr) hsize
  obtain ⟨k, -, -, store, hrun, -⟩ := @compile_eq_ok _ _ _ twoVariables.store
    ⟨by decide, by decide⟩ hresolve hcode hsmall
  obtain ⟨t, hcompile, -⟩ := edit_eq_ok hs.wellFormed hrun
  refine ⟨e, r, .equation k, t, h, hr, hcompile, ?_⟩
  refine evaluate_isolate_eq h hr hcalls hsize (by simp [hasks]) (by simp [hasks]) hs hcompile
    (fun n hn => ?_) [0] false
  simp [Variables.store, Assoc.find?_put, Assoc.find?_remove, hn.symm]

end Expr

end Keystroke
