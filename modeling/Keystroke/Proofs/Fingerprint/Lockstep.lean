import Keystroke.Proofs.Fingerprint.Pairing

set_option autoImplicit false

/-! # Twin programs in lockstep

Two sessions that run twin programs are kept in lockstep: they are at the same line, agree on the
stack and what they share of the variables, and have twin levels (`Lockstep`). A step keeps them so,
stops both, or fails with the same error in both (`Job.Twin.step`); whole runs therefore end alike
or not at all (`Job.Twin.bisimulation`). -/

namespace Keystroke

open Session Level Instr

variable {name a b : Bytes} {P : Bytes → Prop} {e : Error} {c : Command} {l1 l2 : Line}

/-! ## Twin levels -/

/-- The variables of a sum's level in both programs: the index under the name it has in each, and
    those of the compiler's own that are stored already. -/
structure TwinLocals (p q : Bytes) (own : List Bytes) (r1 r2 : Assoc Bytes Float) : Prop where
  index : ∃ x, r1.find? p = some x ∧ r2.find? q = some x
  own : ∀ name ∈ own, name ∈ Scope.ownNames ∧ ∃ x, r1.find? name = some x ∧ r2.find? name = some x
  left : ∀ name, ProperName name → name ≠ p → r1.find? name = none
  right : ∀ name, ProperName name → name ≠ q → r2.find? name = none
  left_proper : ProperName p
  right_proper : ProperName q

theorem ProperName.not_own (h : ProperName name) : name ∉ Scope.ownNames := by
  obtain ⟨hstep, hcount, htotal⟩ := h.ne
  simp [Scope.ownNames, hstep.symm, hcount.symm, htotal.symm]

namespace TwinLocals

variable {p q : Bytes} {own : List Bytes} {r1 r2 : Assoc Bytes Float}

theorem enter (hp : ProperName p) (hq : ProperName q) (x : Float) :
    TwinLocals p q [] [(p, x)] [(q, x)] where
  index := ⟨x, by simp [Assoc.find?]⟩
  own := by simp
  left name _ hne := by simp [Assoc.find?, Ne.symm hne]
  right name _ hne := by simp [Assoc.find?, Ne.symm hne]
  left_proper := hp
  right_proper := hq

theorem put_index (h : TwinLocals p q own r1 r2) (x : Float) :
    TwinLocals p q own (r1.put p x) (r2.put q x) where
  index := ⟨x, by simp⟩
  own name hname := by
    obtain ⟨hown, hfind⟩ := h.own name hname
    have hpn : p ≠ name := fun heq => h.left_proper.not_own (heq ▸ hown)
    have hqn : q ≠ name := fun heq => h.right_proper.not_own (heq ▸ hown)
    simpa [hpn, hqn] using And.intro hown hfind
  left name hname hne := by simp [Ne.symm hne, h.left name hname hne]
  right name hname hne := by simp [Ne.symm hne, h.right name hname hne]
  left_proper := h.left_proper
  right_proper := h.right_proper

theorem put_own (h : TwinLocals p q own r1 r2) (hown : name ∈ Scope.ownNames) (x : Float) :
    TwinLocals p q (own ++ [name]) (r1.put name x) (r2.put name x) where
  index := by
    obtain ⟨y, hy1, hy2⟩ := h.index
    have h1 : name ≠ p := fun heq => h.left_proper.not_own (heq ▸ hown)
    have h2 : name ≠ q := fun heq => h.right_proper.not_own (heq ▸ hown)
    exact ⟨y, by simp [h1, hy1], by simp [h2, hy2]⟩
  own other hother := by
    by_cases heq : name = other
    · subst heq
      exact ⟨hown, x, by simp⟩
    · simpa [heq] using h.own other (by simpa [Ne.symm heq] using hother)
  left other hother hne := by
    have hno : name ≠ other := fun heq => hother.not_own (heq ▸ hown)
    simp [hno, h.left other hother hne]
  right other hother hne := by
    have hno : name ≠ other := fun heq => hother.not_own (heq ▸ hown)
    simp [hno, h.right other hother hne]
  left_proper := h.left_proper
  right_proper := h.right_proper

/-- Names that are seen as the same are both variables of the level, and twins stay twins when these
    change; or neither is one, and they are names of users that stand for the same further out. -/
theorem seen_cases {σ : Scope} (h : TwinLocals p q own r1 r2)
    (hab : Scope.Seen P ((p, q) :: σ) own a b) :
    (∃ y, r1.find? a = some y ∧ r2.find? b = some y ∧
      ∀ x, TwinLocals p q own (r1.put a x) (r2.put b x)) ∨
    σ.Seen P Scope.ownNames a b ∧ r1.find? a = none ∧ r2.find? b = none := by
  rcases hab with ⟨ha, hb, ⟨rfl, rfl⟩ | ⟨hap, hbq, hsame⟩⟩ | ⟨rfl, -, hmem⟩
  · obtain ⟨y, hy1, hy2⟩ := h.index
    exact .inl ⟨y, hy1, hy2, h.put_index⟩
  · exact .inr ⟨.inl ⟨ha, hb, hsame⟩, h.left a ha hap, h.right b hb hbq⟩
  · obtain ⟨hown, y, hy1, hy2⟩ := h.own a hmem
    refine .inl ⟨y, hy1, hy2, fun x => ?_⟩
    have hput := h.put_own hown x
    exact { hput with own := fun name hname => hput.own name (List.mem_append_left _ hname) }

end TwinLocals

/-- The levels of the sums under way in both programs; each has its indices around the line that it
    returns to. The innermost has stored some of its own names, and the others have stored all. -/
inductive TwinLevels (W : Nat → Place → Prop) :
    List Bytes → Scope → List Level → List Level → Prop
  | nil {own : List Bytes} : TwinLevels W own [] [] []
  | cons {p q : Bytes} {own : List Bytes} {σ : Scope} {back : Nat} {r1 r2 : Assoc Bytes Float}
      {ls1 ls2 : List Level} (hback : W back (.within σ Scope.ownNames))
      (hrow : TwinLocals p q own r1 r2) (hrest : TwinLevels W Scope.ownNames σ ls1 ls2) :
    TwinLevels W own ((p, q) :: σ) (⟨back, r1⟩ :: ls1) (⟨back, r2⟩ :: ls2)

namespace TwinLevels

variable {S : Sharing} {W : Nat → Place → Prop} {own : List Bytes} {σ : Scope}
  {ls1 ls2 : List Level} {P : Bytes → Prop} {a b : Bytes} {v w : Variables}

theorem length_eq (h : TwinLevels W own σ ls1 ls2) : ls1.length = ls2.length := by
  induction h with
  | nil => rfl
  | cons _ _ _ ih => simp [ih]

theorem eq_of_seen_nil (hab : Scope.Seen P [] own a b) : a = b ∧ P a := by
  rcases hab with ⟨-, -, hsame⟩ | ⟨-, hnil, -⟩
  · exact hsame
  · exact absurd rfl hnil

section

variable (h : TwinLevels W own σ ls1 ls2) (hab : σ.Seen P own a b)

include h hab

/-- Names that are seen as the same have the same value of a level, or they are one name. -/
theorem lookup? :
    (∃ x, lookup? ls1 a = some x ∧ lookup? ls2 b = some x) ∨
      lookup? ls1 a = none ∧ lookup? ls2 b = none ∧ a = b ∧ P a := by
  induction h with
  | nil => exact .inr ⟨rfl, rfl, eq_of_seen_nil hab⟩
  | cons _ hrow _ ih =>
    rw [Level.lookup?, Level.lookup?]
    rcases hrow.seen_cases hab with ⟨y, h1, h2, -⟩ | ⟨hout, h1, h2⟩
    · exact .inl ⟨y, by rw [h1, Option.some_or], by rw [h2, Option.some_or]⟩
    · rw [h1, h2, Option.none_or, Option.none_or]
      exact ih hout

theorem valueIn (hP : ∀ n, P n → S.Real n) (hvars : S.Vars v w) :
    S.Same (valueIn ls1 v a) (valueIn ls2 w b) := by
  rw [Level.valueIn, Level.valueIn]
  rcases h.lookup? hab with ⟨x, h1, h2⟩ | ⟨h1, h2, rfl, ha⟩
  · rw [h1, h2]
    exact ⟨rfl, fun e he => by cases he⟩
  · rw [h1, h2]
    exact S.fetch hvars (hP a ha)

/-- Storing under names that are seen as the same changes twin levels to twin levels, or they are
    one name that no level has. -/
theorem update? (x : Float) :
    (∃ ms1 ms2, update? ls1 a x = some ms1 ∧ update? ls2 b x = some ms2 ∧
      TwinLevels W own σ ms1 ms2) ∨
    update? ls1 a x = none ∧ update? ls2 b x = none ∧ a = b := by
  induction h with
  | nil => exact .inr ⟨rfl, rfl, (eq_of_seen_nil hab).1⟩
  | cons hback hrow hrest ih =>
    rw [Level.update?, Level.update?]
    rcases hrow.seen_cases hab with ⟨y, h1, h2, hput⟩ | ⟨hout, h1, h2⟩
    · rw [h1, h2]
      exact .inl ⟨_, _, rfl, rfl, .cons hback (hput x) hrest⟩
    · rw [h1, h2]
      rcases ih hout with ⟨ms1, ms2, hms1, hms2, htwin⟩ | ⟨hms1, hms2, heq⟩
      · rw [hms1, hms2]
        exact .inl ⟨_, _, rfl, rfl, .cons hback hrow htwin⟩
      · rw [hms1, hms2]
        exact .inr ⟨rfl, rfl, heq⟩

theorem storeIn (hvars : S.Vars v w)
    (x : Float) : TwinLevels W own σ (storeIn ls1 v a x).1 (storeIn ls2 w b x).1 ∧
      S.Vars (storeIn ls1 v a x).2 (storeIn ls2 w b x).2 := by
  rw [Level.storeIn, Level.storeIn]
  rcases h.update? hab x with ⟨ms1, ms2, h1, h2, htwin⟩ | ⟨h1, h2, rfl⟩
  · simp only [h1, h2]
    exact ⟨htwin, hvars⟩
  · simp only [h1, h2]
    exact ⟨h, S.store hvars a x⟩

end

end TwinLevels

/-! ## Sessions in lockstep -/

/-- The levels of two sessions at a place. -/
def Place.Levels (W : Nat → Place → Prop) : Place → List Level → List Level → Prop
  | .top, ls1, ls2 => ls1 = [] ∧ ls2 = []
  | .entry _ σ, ls1, ls2 => ∃ back ms1 ms2, ls1 = ⟨back, []⟩ :: ms1 ∧ ls2 = ⟨back, []⟩ :: ms2 ∧
    W back (.within σ Scope.ownNames) ∧ TwinLevels W Scope.ownNames σ ms1 ms2
  | .within σ own, ls1, ls2 => TwinLevels W own σ ls1 ls2

/-- The sessions share what is shared, and have the same limits and declarations. -/
structure Session.Agree (S : Sharing) (s1 s2 : Session) : Prop extends s1.SameData S s2 where
  stepLimit : s1.stepLimit = s2.stepLimit
  max : s1.calls.max = s2.calls.max
  func : s1.calls.baseFunc = s2.calls.baseFunc
  funcs : s1.funcs = s2.funcs

/-- The declaration at the top of a program was performed. -/
def Session.Declared (s : Session) : Prop :=
  s.calls.baseFunc = true ∧ ∃ record, s.funcs.find? 0 = some record

section

variable (S : Sharing) (W : Nat → Place → Prop) (j1 j2 : Job)

/-- The sessions are about to perform the same line at a place. -/
structure Lockstep (k : Nat) (p : Place) (s1 s2 : Session) : Prop where
  place : W k p
  levels : ∃ ls1 ls2, j1.Runs k ls1 s1 ∧ j2.Runs k ls2 s2 ∧ p.Levels W ls1 ls2
  agree : s1.Agree S s2
  declared : p ≠ .top → s1.Declared

/-- The sessions are in lockstep, or have stopped with the same numbers. -/
inductive Together (s1 s2 : Session) : Prop
  | running {k : Nat} {p : Place} (h : Lockstep S W j1 j2 k p s1 s2)
  | stopped (h1 : s1.running = false) (h2 : s2.running = false) (hstack : s1.stack = s2.stack)
      (hvars : S.Vars s1.vars s2.vars)

/-- What performing line `k` gives: sessions that go on together, or the same error. -/
inductive PerformsAlike (k : Nat) :
    EStateM.Result Error Session Session.Next → EStateM.Result Error Session Session.Next → Prop
  | go {n1 n2 : Session.Next} {t1 t2 : Session}
      (h : Together S W j1 j2 (t1.proceed n1) (t2.proceed n2)) :
    PerformsAlike k (.ok n1 t1) (.ok n2 t2)
  | fail {e : Error} {t1 t2 : Session} (he : S.Errors e e) (h1 : j1.Placed k t1)
      (h2 : j2.Placed k t2) (hvars : S.Vars t1.vars t2.vars) :
    PerformsAlike k (.error e t1) (.error e t2)

/-- Performing the lines with number `k` gives such results. -/
def Performs (k : Nat) (i1 i2 : Instr) (s1 s2 : Session) : Prop :=
  PerformsAlike S W j1 j2 k (perform i1 (j1.offset (k + 1)) s1)
    (perform i2 (j2.offset (k + 1)) s2)

end

namespace Lockstep

variable {S : Sharing} {W : Nat → Place → Prop} {j1 j2 : Job} {k n : Nat} {p : Place} {σ : Scope}
  {own : List Bytes} {s1 s2 t1 t2 : Session} {ls1 ls2 : List Level}

/-- Sessions that stop or fail nowhere go on at the same line. -/
theorem go (hplace : W n p) (h1 : j1.Runs n ls1 { t1 with pc := j1.offset n })
    (h2 : j2.Runs n ls2 { t2 with pc := j2.offset n }) (hlevels : p.Levels W ls1 ls2)
    (hagree : t1.Agree S t2) (hdeclared : p ≠ .top → t1.Declared) :
    PerformsAlike S W j1 j2 k (.ok { pc := j1.offset n } t1) (.ok { pc := j2.offset n } t2) := by
  refine .go ?_
  have hrun1 : t1.running = true := h1.running
  have hrun2 : t2.running = true := h2.running
  rw [proceed_of_running hrun1, proceed_of_running hrun2]
  exact .running ⟨hplace, ⟨ls1, ls2, h1, h2, hlevels⟩, { hagree with }, hdeclared⟩

theorem fail (h : Lockstep S W j1 j2 k p s1 s2) (he : S.Errors e e) :
    PerformsAlike S W j1 j2 k (.error e s1) (.error e s2) := by
  obtain ⟨ls1, ls2, h1, h2, -⟩ := h.levels
  exact .fail he h1.toPlaced h2.toPlaced h.agree.vars

theorem fail_ordinary (h : Lockstep S W j1 j2 k p s1 s2) (he : .nonexistent ∉ e.causes) :
    PerformsAlike S W j1 j2 k (.error e s1) (.error e s2) :=
  h.fail (S.ordinary he)

section

variable (h : Lockstep S W j1 j2 k (.within σ own) s1 s2)

include h

theorem perform_calculate {i i' : Instr}
    (hc : i'.command = i.command) (ho : i'.operand = i.operand)
    (hi : S.Admits i) (hnext : W (k + 1) (.within σ own)) :
    Performs S W j1 j2 k i i' s1 s2 := by
  obtain ⟨ls1, ls2, h1, h2, hlevels⟩ := h.levels
  have hperform := parallel_perform hc ho hi (j1.offset (k + 1)) (j2.offset (k + 1)) s1 s2
    h.agree.toSameData
  unfold Performs
  generalize perform i _ s1 = r1 at hperform
  generalize perform i' _ s2 = r2 at hperform
  cases hperform with
  | error he _ => exact .fail he { h1.toPlaced with } { h2.toPlaced with } h.agree.vars
  | ok hab hx =>
    obtain ⟨rfl, rfl⟩ := hab
    exact go hnext { h1 with pc := rfl } { h2 with pc := rfl } hlevels
      { h.agree with stack := rfl, lastX := hx } fun _ => h.declared (by simp)

theorem perform_fetch
    (hc : c.action? = some (.fetch none)) (hab : σ.Seen P own a b) (hP : ∀ n, P n → S.Real n)
    (hnext : W (k + 1) (.within σ own)) :
    Performs S W j1 j2 k (.withName c a) (.withName c b) s1 s2 := by
  obtain ⟨ls1, ls2, h1, h2, hlevels⟩ := h.levels
  obtain ⟨hvalue, herror⟩ : S.Same (s1.valueOf (withName c a).operand.text)
      (s2.valueOf (withName c b).operand.text) := by
    rw [h1.valueOf_eq, h2.valueOf_eq]
    exact hlevels.valueIn hab hP h.agree.vars
  unfold Performs
  rw [perform_fetch_eq hc rfl, perform_fetch_eq hc rfl, ← hvalue]
  cases hr : s1.valueOf (withName c a).operand.text with
  | error e => exact h.fail (herror e hr)
  | ok v =>
    exact go hnext { h1 with pc := rfl } { h2 with pc := rfl } hlevels
      { h.agree with stack := congrArg (v :: ·) h.agree.stack } fun _ => h.declared (by simp)

theorem perform_store {op? : Option ArithOp}
    (hc : c.action? = some (.store op?)) (hab : σ.Seen P own a b)
    (hP : op? ≠ none → ∀ n, P n → S.Real n) (hnext : W (k + 1) (.within σ own)) :
    Performs S W j1 j2 k (.withName c a) (.withName c b) s1 s2 := by
  obtain ⟨ls1, ls2, h1, h2, hlevels⟩ := h.levels
  have hcombined : ∀ x, S.Same (s1.combined (withName c a).operand.text x op?)
      (s2.combined (withName c b).operand.text x op?) := by
    intro x
    cases op? with
    | none => exact ⟨rfl, fun e he => by cases he⟩
    | some op =>
      rw [combined, combined, h1.valueOf_eq, h2.valueOf_eq]
      exact (hlevels.valueIn hab (hP (by simp)) h.agree.vars).bind fun v =>
        S.same_of_arithmetical (op.arithmetical_eval v x)
  unfold Performs
  rw [perform_store_eq hc rfl, perform_store_eq hc rfl, h.agree.stack]
  cases s2.stack with
  | nil =>
    exact h.fail_ordinary (by simp [Error.causes])
  | cons x rest =>
    obtain ⟨hvalue, herror⟩ := hcombined x
    dsimp only
    rw [← hvalue]
    cases hr : s1.combined (withName c a).operand.text x op? with
    | error e => exact h.fail (herror e hr)
    | ok r =>
      obtain ⟨table1, hstore1, hruns1⟩ := h1.storeVariable a r
      obtain ⟨table2, hstore2, hruns2⟩ := h2.storeVariable b r
      obtain ⟨hlevels', hvars⟩ := hlevels.storeIn hab h.agree.vars r
      dsimp only [withName]
      rw [hstore1, hstore2]
      exact go hnext hruns1 hruns2 hlevels' { h.agree with vars := hvars }
        fun _ => h.declared (by simp)

end

theorem perform_storeLocal (h : Lockstep S W j1 j2 k p s1 s2) (hc : c.action? = some .storeLocal)
    (hp : p ≠ .top) (hnext : W (k + 1) (.within σ own))
    (hput : ∀ x ls1 ls2, p.Levels W ls1 ls2 → ∃ l1 l2 ms1 ms2, ls1 = l1 :: ms1 ∧ ls2 = l2 :: ms2 ∧
      TwinLevels W own σ ({ l1 with locals := l1.locals.put a x } :: ms1)
        ({ l2 with locals := l2.locals.put b x } :: ms2)) :
    Performs S W j1 j2 k (.withName c a) (.withName c b) s1 s2 := by
  obtain ⟨ls1, ls2, h1, h2, hlevels⟩ := h.levels
  unfold Performs
  rw [perform_storeLocal_eq hc, perform_storeLocal_eq hc, h.agree.stack]
  cases s2.stack with
  | nil => exact h.fail_ordinary (by simp [Error.causes])
  | cons x rest =>
    obtain ⟨l1, l2, ms1, ms2, rfl, rfl, htwin⟩ := hput x ls1 ls2 hlevels
    exact go hnext (h1.putLocal a x) (h2.putLocal b x) htwin { h.agree with }
      fun _ => h.declared hp

theorem perform_stored (h : Lockstep S W j1 j2 k (.within σ own) s1 s2) (hσ : σ ≠ [])
    (hname : name ∈ Scope.ownNames) (hnext : W (k + 1) (.within σ (own ++ [name]))) :
    Performs S W j1 j2 k (.withName .lsto name) (.withName .lsto name) s1 s2 := by
  refine h.perform_storeLocal rfl (by simp) hnext fun x ls1 ls2 hlevels => ?_
  cases hlevels with
  | nil => exact absurd rfl hσ
  | cons hback hrow hrest =>
    exact ⟨_, _, _, _, rfl, rfl, .cons hback (hrow.put_own hname x) hrest⟩

theorem perform_test (h : Lockstep S W j1 j2 k (.within σ own) s1 s2)
    (hl1 : j1.lines[k + 1]? = some l1) (hl2 : j2.lines[k + 1]? = some l2)
    (hnext : W (k + 1) (.within σ own)) (hskip : W (k + 2) (.within σ own)) :
    Performs S W j1 j2 k (.plain .ifTrue) (.plain .ifTrue) s1 s2 := by
  obtain ⟨ls1, ls2, h1, h2, hlevels⟩ := h.levels
  have hc : (plain .ifTrue).command.action? = some .skipUnless := rfl
  unfold Performs
  rw [perform_skipUnless_eq hc, perform_skipUnless_eq hc, h.agree.stack]
  cases s2.stack with
  | nil => exact h.fail_ordinary (by simp [Error.causes])
  | cons x rest =>
    cases hx : x == 0 with
    | false =>
      simp only [hx]
      exact go hnext { h1 with pc := rfl } { h2 with pc := rfl } hlevels
        { h.agree with stack := rfl } fun _ => h.declared (by simp)
    | true =>
      simp only [hx]
      have hp1 : j1.Placed k { s1 with stack := rest } := { h1.toPlaced with }
      have hp2 : j2.Placed k { s2 with stack := rest } := { h2.toPlaced with }
      refine .go ?_
      rw [hp1.proceed_skip hl1, hp2.proceed_skip hl2]
      exact .running ⟨hskip, ⟨ls1, ls2, { h1 with pc := rfl }, { h2 with pc := rfl }, hlevels⟩,
        { h.agree with stack := rfl }, fun _ => h.declared (by simp)⟩

/-- A return goes back to the caller. At level zero both sessions stop, with the same numbers. -/
theorem perform_leave (h : Lockstep S W j1 j2 k (.within σ own) s1 s2) :
    Performs S W j1 j2 k (.plain .rtn) (.plain .rtn) s1 s2 := by
  obtain ⟨ls1, ls2, h1, h2, hlevels⟩ := h.levels
  have hc : (plain .rtn).command.action? = some .leave := rfl
  obtain ⟨hfunc, record, hrecord⟩ := h.declared (by simp)
  unfold Performs
  cases hlevels with
  | nil =>
    rw [perform_leave_base_eq hc h1.level h1.cursor hfunc hrecord,
      perform_leave_base_eq hc h2.level h2.cursor (h.agree.func ▸ hfunc)
        (h.agree.funcs ▸ hrecord),
      h.agree.stack]
    cases hkeep : keepOutputs s2.stack record with
    | error e =>
      refine .fail (S.ordinary ?_) { h1.toPlaced with } { h2.toPlaced with } h.agree.vars
      rw [error_of_keepOutputs hkeep]
      simp [Error.causes]
    | ok stack =>
      refine .go ?_
      exact .stopped rfl rfl rfl h.agree.vars
  | @cons _ _ _ σ back r1 r2 ms1 ms2 hback hrow hrest =>
    rw [perform_leave hc h1.level h1.slots h1.stopLevel,
      perform_leave hc h2.level h2.slots h2.stopLevel]
    have hfuncs : s1.funcs.remove (ms1.length + 1) = s2.funcs.remove (ms2.length + 1) := by
      rw [h.agree.funcs, hrest.length_eq]
    -- leaving a level does not touch what level zero declared
    have hkept : (s1.funcs.remove (ms1.length + 1)).find? 0 = some record := by
      rw [Assoc.find?_remove, if_neg (Nat.succ_ne_zero _), hrecord]
    exact go hback h1.leave h2.leave hrest { h.agree with funcs := hfuncs }
      fun _ => ⟨hfunc, record, hkept⟩

theorem perform_declare (h : Lockstep S W j1 j2 k .top s1 s2)
    (hnext : W (k + 1) (.within [] Scope.ownNames)) :
    Performs S W j1 j2 k (.withNum .func 11) (.withNum .func 11) s1 s2 := by
  obtain ⟨ls1, ls2, h1, h2, hlevels⟩ := h.levels
  obtain ⟨rfl, rfl⟩ := hlevels
  have hc : (withNum .func 11).command.action? = some .func := rfl
  unfold Performs
  by_cases hstack : s1.stack = []
  · rw [perform_func_nil hc rfl hstack, perform_func_nil hc rfl (h.agree.stack ▸ hstack)]
    exact h.fail_ordinary (by simp [Error.causes])
  · rw [perform_func hc rfl h1.level hstack, perform_func hc rfl h2.level (h.agree.stack ▸ hstack)]
    have hfuncs : s1.funcs.put 0 ⟨s1.stack.length - 1, 1⟩
        = s2.funcs.put 0 ⟨s2.stack.length - 1, 1⟩ := by
      rw [h.agree.funcs, h.agree.stack]
    exact go hnext { h1 with pc := rfl } { h2 with pc := rfl } .nil
      { h.agree with func := rfl, funcs := hfuncs }
      fun _ => ⟨rfl, _, (Assoc.find?_put ..).trans (if_pos rfl)⟩

section

variable {m : Int32}

/-- The line that the machine sees at a jump. -/
def jumpLine (j : Job) (c : Command) (m : Int32) : Instr :=
  (withNum c m).withTarget (targetIn false j.lines [] (.withNum c m))

/-- A jump leads to the same line in both programs. -/
theorem perform_goto (h : Lockstep S W j1 j2 k (.within σ own) s1 s2) (hm : m.toInt = n + 1)
    (hthere : W n (.within σ own)) :
    Performs S W j1 j2 k (jumpLine j1 .gtol m) (jumpLine j2 .gtol m) s1 s2 := by
  obtain ⟨ls1, ls2, h1, h2, hlevels⟩ := h.levels
  have hgo : ∀ {j : Job} {s : Session} (next : Int),
      perform (jumpLine j .gtol m) next s = .ok { pc := j.offset n } s := by
    intro j s next
    rw [← Job.target_eq_offset (i := .withNum .gtol m) (.inl rfl) hm]
    exact perform_jump rfl (by simp [jumpLine, withTarget, withNum])
      (Job.not_target_neg (.inl rfl) hm)
  unfold Performs
  rw [hgo, hgo]
  exact go hthere { h1 with pc := rfl } { h2 with pc := rfl } hlevels h.agree fun _ =>
    h.declared (by simp)

/-- A call enters the subroutine of a sum, unless too many returns are pending. -/
theorem perform_call (h : Lockstep S W j1 j2 k (.within σ Scope.ownNames) s1 s2)
    {index : Bytes × Bytes} (hm : m.toInt = n + 1) (hthere : W n (.entry index σ))
    (hback : W (k + 1) (.within σ Scope.ownNames)) :
    Performs S W j1 j2 k (jumpLine j1 .xeql m) (jumpLine j2 .xeql m) s1 s2 := by
  obtain ⟨ls1, ls2, h1, h2, hlevels⟩ := h.levels
  have hlength := TwinLevels.length_eq hlevels
  have hkind : ∀ j, (jumpLine j .xeql m).operand.kind ≠ .text := by
    simp [jumpLine, withTarget, withNum]
  have htarget (j : Job) : (jumpLine j .xeql m).operand.target.toInt = j.offset n :=
    Job.target_eq_offset (.inr rfl) hm
  have hpos (j : Job) : ¬ (jumpLine j .xeql m).operand.target < 0 :=
    Job.not_target_neg (.inr rfl) hm
  unfold Performs
  by_cases hfull : (s1.calls.level : Int) = s1.calls.max
  · have hfull2 : (s2.calls.level : Int) = s2.calls.max := by
      rw [h2.level, ← hlength, ← h.agree.max, ← hfull, h1.level]
    rw [perform_call_full rfl (hkind _) (hpos _) hfull,
      perform_call_full rfl (hkind _) (hpos _) hfull2]
    exact h.fail_ordinary (by simp [Error.causes])
  · have hroom2 : (s2.calls.level : Int) ≠ s2.calls.max := by
      rw [h2.level, ← hlength, ← h.agree.max, ← h1.level]
      exact hfull
    rw [Session.perform_call rfl (hkind _) (hpos _) hfull h1.current,
      Session.perform_call rfl (hkind _) (hpos _) hroom2 h2.current, htarget, htarget]
    exact go hthere (h1.call n) (h2.call n) ⟨k + 1, ls1, ls2, rfl, rfl, hback, hlevels⟩
      { h.agree with } fun _ => h.declared (by simp)

end

theorem perform (tw : j1.Twin S W j2) (h : Lockstep S W j1 j2 k p s1 s2)
    (hl1 : j1.lines[k]? = some l1) (hl2 : j2.lines[k]? = some l2)
    (hfits : Fits S W k p l1.instr l2.instr) :
    Performs S W j1 j2 k (j1.read l1) (j2.read l2) s1 s2 := by
  -- lines are read as they are, and jumps with their targets
  have hread : ∀ {j : Job} {l : Line} {i : Instr}, j.lines[k]? = some l → l.instr = i →
      (∀ call, i.command.action? ≠ some (.jump call)) → j.read l = i := by
    rintro j l i hl rfl hjump
    exact Job.read_eq (List.mem_of_getElem? hl) hjump
  have hname : ∀ {j : Job} {l : Line} {c : Command} {name : Bytes}, j.lines[k]? = some l →
      l.instr = .withName c name → (∀ call, c.action? ≠ some (.jump call)) →
        j.read l = .withName c name := hread
  have hjump : ∀ {j : Job} {l : Line} {c : Command} {m : Int32}, l.instr = .withNum c m →
      c = .gtol ∨ c = .xeql → j.read l = jumpLine j c m := by
    intro j l c m hl hc
    rw [Job.read_jump (by rw [hl]; exact hc), hl, jumpLine]
  generalize hi1 : l1.instr = i1 at hfits
  generalize hi2 : l2.instr = i2 at hfits
  cases hfits with
  | declare hnext =>
    rw [hread hl1 hi1 (by decide), hread hl2 hi2 (by decide)]
    exact h.perform_declare hnext
  | index ha hb hnext =>
    rw [hname hl1 hi1 (by decide), hname hl2 hi2 (by decide)]
    refine h.perform_storeLocal rfl (by simp) hnext fun x ls1 ls2 hlevels => ?_
    obtain ⟨back, ms1, ms2, rfl, rfl, hback, htwin⟩ := hlevels
    exact ⟨_, _, _, _, rfl, rfl, .cons hback (.enter ha hb x) htwin⟩
  | calculate hc ho hi hnext =>
    have hcalm : ∀ call, i1.command.action? ≠ some (.jump call) := by
      intro call hcall
      unfold Sharing.Admits at hi
      rw [hcall] at hi
      cases hi
    rw [hread hl1 hi1 hcalm, hread hl2 hi2 (by rw [hc]; exact hcalm)]
    exact h.perform_calculate hc ho hi hnext
  | @named _ _ c _ _ hc hab hnext =>
    have haction : c.action? = some (.fetch none) ∧ c ≠ .sto ∨
        ∃ op?, c.action? = some (.store op?) ∧ (op? ≠ none → c ≠ .sto) := by
      fin_cases hc
      · exact .inl ⟨rfl, by decide⟩
      · exact .inr ⟨none, rfl, absurd rfl⟩
      all_goals exact .inr ⟨_, rfl, fun _ => by decide⟩
    rcases haction with ⟨haction, hne⟩ | ⟨op?, haction, hne⟩
    · rw [hname hl1 hi1 (by simp [haction]), hname hl2 hi2 (by simp [haction])]
      exact h.perform_fetch haction hab (fun _ hreal => hreal hne) hnext
    · rw [hname hl1 hi1 (by simp [haction]), hname hl2 hi2 (by simp [haction])]
      exact h.perform_store haction hab (fun hop _ hreal => hreal (hne hop)) hnext
  | stored hσ hown hnext =>
    rw [hname hl1 hi1 (by decide), hname hl2 hi2 (by decide)]
    exact h.perform_stored hσ hown hnext
  | test hnext hskip =>
    obtain ⟨-, -, ⟨l, hl, -⟩, ⟨l', hl', -⟩, -⟩ := tw.line _ _ hnext
    rw [hread hl1 hi1 (by decide), hread hl2 hi2 (by decide)]
    exact h.perform_test hl hl' hnext hskip
  | goto hm hthere =>
    rw [hjump hi1 (.inl rfl), hjump hi2 (.inl rfl)]
    exact h.perform_goto hm hthere
  | call hm hthere hback =>
    rw [hjump hi1 (.inr rfl), hjump hi2 (.inr rfl)]
    exact h.perform_call hm hthere hback
  | leave =>
    rw [hread hl1 hi1 (by decide), hread hl2 hi2 (by decide)]
    exact h.perform_leave

end Lockstep

/-! ## Steps and runs -/

theorem Fits.command_eq {S : Sharing} {W : Nat → Place → Prop} {k : Nat} {p : Place}
    {i1 i2 : Instr} (h : Fits S W k p i1 i2) : i2.command = i1.command := by
  cases h with
  | calculate hc => exact hc
  | _ => rfl

namespace Job

variable {S : Sharing} {W : Nat → Place → Prop} {j j1 j2 : Job} {k : Nat} {p : Place}
  {s s1 s2 : Session}

theorem command_read (j : Job) (l : Line) : (j.read l).command = l.instr.command := by
  unfold read
  split <;> rfl

theorem Placed.lineError_eq (h : j.Placed k s) {l : Line} (hl : j.lines[k]? = some l) (c : Command)
    (e : Error) : s.lineError c e = if e.isCrash then e else .atLine j.ref (k + 1) c e := by
  rw [lineError, h.current, h.pc, h.loaded.lineAt hl]

/-- A step keeps the sessions together or fails in both. -/
theorem Twin.step (tw : j1.Twin S W j2) (h : Lockstep S W j1 j2 k p s1 s2) :
    Session.StepsAlike S.Vars S.Errors (Together S W j1 j2) (step s1) (step s2) := by
  obtain ⟨i1, i2, ⟨l1, hl1, rfl⟩, ⟨l2, hl2, rfl⟩, hfits⟩ := tw.line k p h.place
  obtain ⟨hplace, ⟨ls1, ls2, h1, h2, hlevels⟩, hagree, hdeclared⟩ := h
  obtain ⟨st1, hst1, hstep1⟩ := h1.step_eq hl1
  obtain ⟨st2, hst2, hstep2⟩ := h2.step_eq hl2
  -- looking up targets in the stores changes nothing
  have hstored : Lockstep S W j1 j2 k p { s1 with store := st1 } { s2 with store := st2 } :=
    ⟨hplace, ⟨ls1, ls2, { h1 with loaded := hst1 }, { h2 with loaded := hst2 }, hlevels⟩,
      { hagree with }, hdeclared⟩
  have hperf := hstored.perform tw hl1 hl2 hfits
  unfold Performs at hperf
  rw [hstep1, hstep2]
  generalize perform (j1.read l1) _ _ = r1 at hperf
  generalize perform (j2.read l2) _ _ = r2 at hperf
  cases hperf with
  | go h => exact .go h
  | fail he hp1 hp2 hvars =>
    have hcommand : (j2.read l2).command = (j1.read l1).command := by
      rw [command_read, command_read, hfits.command_eq]
    dsimp only
    rw [hp1.lineError_eq hl1, hp2.lineError_eq hl2, hcommand]
    refine .fail ?_ hvars
    split
    · exact he
    · exact tw.errors _ _ he

theorem Twin.bisimulation (tw : j1.Twin S W j2) :
    Session.Bisimulation S.Vars S.Errors (Together S W j1 j2) where
  ordinary := S.ordinary
  running h := by
    cases h with
    | running h =>
      obtain ⟨ls1, ls2, h1, h2, -⟩ := h.levels
      rw [h1.running, h2.running]
    | stopped h1 h2 => rw [h1, h2]
  stack h := by
    cases h with
    | running h => exact h.agree.stack
    | stopped _ _ hstack => exact hstack
  vars h := by
    cases h with
    | running h => exact h.agree.vars
    | stopped _ _ _ hvars => exact hvars
  stepLimit h hrun := by
    cases h with
    | running h => exact h.agree.stepLimit
    | stopped h1 => exact absurd (h1.symm.trans hrun) (by simp)
  step h hrun := by
    cases h with
    | running h => exact tw.step h
    | stopped h1 => exact absurd (h1.symm.trans hrun) (by simp)

end Job

end Keystroke
