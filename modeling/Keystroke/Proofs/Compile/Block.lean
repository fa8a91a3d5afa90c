import Keystroke.Proofs.Algebra.Proper
import Keystroke.Proofs.Compile.Evaluator
import Keystroke.Proofs.Compile.Layout
import Keystroke.Proofs.Machine.Job

set_option autoImplicit false

/-! # Code that computes

A block of lines computes what a computation of the evaluator yields: it takes some numbers off the
stack, leaves others, and changes the scopes and variables as the computation does (`Job.Computes`).
Blocks are put together as computations are (`Job.Computes.bind`). The scope of a sum is a level of
the machine, whose other local variables have names that no scope has. -/

namespace Keystroke

/-! ## Scopes as levels -/

/-- What the machine keeps of a sum under way beside its index. -/
structure Tally where
  back : Nat
  step : Float
  count : Float
  total : Float

/-- The level of a sum. -/
def Tally.level (t : Tally) (scope : Bytes × Float) : Level :=
  ⟨t.back, [scope, (stepName, t.step), (countName, t.count), (totalName, t.total)]⟩

/-- The levels of the sums under way. -/
def levelsOf (scopes : List (Bytes × Float)) (ts : List Tally) : List Level :=
  List.zipWith (fun scope t => t.level scope) scopes ts

theorem ProperName.ne {name : Bytes} (h : ProperName name) :
    stepName ≠ name ∧ countName ≠ name ∧ totalName ≠ name := by
  refine ⟨?_, ?_, ?_⟩ <;> rintro rfl <;> exact h.head (by decide)

section

variable {scopes : List (Bytes × Float)} {ts : List Tally} {name : Bytes}

theorem Tally.find?_level (t : Tally) (scope : Bytes × Float) (h : ProperName name) :
    (t.level scope).locals.find? name = if scope.1 = name then some scope.2 else none := by
  obtain ⟨hs, hn, ha⟩ := h.ne
  simp [Tally.level, Assoc.find?, hs, hn, ha]

theorem lookup?_levelsOf (h : ProperName name) :
    ∀ {scopes : List (Bytes × Float)} {ts : List Tally},
    ts.length = scopes.length → Level.lookup? (levelsOf scopes ts) name = Assoc.find? scopes name
  | [], _, _ => rfl
  | _ :: _, [], hlen => absurd hlen (by simp)
  | scope :: scopes, t :: ts, hlen => by
    have htail := lookup?_levelsOf h (Nat.succ.inj hlen)
    rw [levelsOf] at htail ⊢
    rw [List.zipWith_cons_cons, Level.lookup?, htail, t.find?_level scope h, Assoc.find?]
    split <;> simp

theorem update?_levelsOf (h : ProperName name) (x : Float) : ∀ {scopes : List (Bytes × Float)}
    {ts : List Tally}, ts.length = scopes.length → Level.update? (levelsOf scopes ts) name x =
      if (Assoc.find? scopes name).isSome then some (levelsOf (Assoc.put scopes name x) ts)
        else none
  | [], _, _ => rfl
  | _ :: _, [], hlen => absurd hlen (by simp)
  | scope :: scopes, t :: ts, hlen => by
    have htail := update?_levelsOf h x (Nat.succ.inj hlen)
    rw [levelsOf] at htail ⊢
    rw [List.zipWith_cons_cons, Level.update?, htail, t.find?_level scope h, Assoc.find?]
    by_cases hs : scope.1 = name
    · simp [hs, Assoc.put, Tally.level, levelsOf]
    · by_cases hf : (Assoc.find? scopes name).isSome <;>
        simp [hs, hf, Assoc.put, Tally.level, levelsOf]

theorem map_fst_put (scopes : List (Bytes × Float)) (name : Bytes) (x : Float)
    (h : (Assoc.find? scopes name).isSome) :
    (Assoc.put scopes name x).map Prod.fst = scopes.map Prod.fst := by
  induction scopes with
  | nil => exact absurd h (by simp)
  | cons scope scopes ih =>
    rw [Assoc.find?] at h
    by_cases hs : scope.1 = name
    · simp [Assoc.put, hs]
    · rw [if_neg hs] at h
      simp [Assoc.put, hs, ih h]

theorem valueIn_levelsOf {vars : Variables} (h : ProperName name)
    (hlen : ts.length = scopes.length) :
    Level.valueIn (levelsOf scopes ts) vars name = match Assoc.find? scopes name with
      | some x => .ok x
      | none => vars.fetch name := by
  rewrite [Level.valueIn, lookup?_levelsOf h hlen]
  cases Assoc.find? scopes name <;> rfl

end

theorem length_of_map_fst {scopes scopes' : List (Bytes × Float)} {n : Nat}
    (h : scopes'.map Prod.fst = scopes.map Prod.fst) (hlen : n = scopes.length) :
    n = scopes'.length := by
  have := congrArg List.length h
  simp only [List.length_map] at this
  omega

/-! ## Blocks -/

namespace Job

variable {j : Job} {α β : Type} {a b c depth : Nat} {pre : List Float} {mid : α → List Float}

/-- From line `a` to line `b` the machine takes the numbers `pre` off the stack and leaves `post` of
    the computation's result. Sums stand `depth` deep in it. -/
def Computes (j : Job) (a b depth : Nat) (pre : List Float) (x : Eval α) (post : α → List Float) :
    Prop :=
  ∀ ⦃env v env'⦄ (ts : List Tally) (st : List Float), x.Yields env v env' →
    ts.length = env.scopes.length → (ts.length + depth : Int) ≤ j.depth →
    env'.scopes.map Prod.fst = env.scopes.map Prod.fst ∧
    j.Leads ⟨a, pre ++ st, levelsOf env.scopes ts, env.vars⟩
      ⟨b, post v ++ st, levelsOf env'.scopes ts, env'.vars⟩

namespace Computes

variable {x : Eval α} {f : α → Eval β} {post : β → List Float}

/-- One block behind another, for every result that the first can have. -/
theorem bind_of_yields (h : j.Computes a b depth pre x mid)
    (h' : ∀ v, (∃ env env', x.Yields env v env') → j.Computes b c depth (mid v) (f v) post) :
    j.Computes a c depth pre (x >>= f) post := by
  intro env v env' ts st hy hlen hdepth
  obtain ⟨u, env1, hx, hf⟩ := Eval.yields_bind.1 hy
  obtain ⟨hnames, hlead⟩ := h ts st hx hlen hdepth
  obtain ⟨hnames', hlead'⟩ := h' u ⟨env, env1, hx⟩ ts st hf (length_of_map_fst hnames hlen) hdepth
  exact ⟨hnames'.trans hnames, hlead.trans hlead'⟩

theorem bind (h : j.Computes a b depth pre x mid)
    (h' : ∀ v, j.Computes b c depth (mid v) (f v) post) :
    j.Computes a c depth pre (x >>= f) post :=
  h.bind_of_yields fun v _ => h' v

theorem before {pre' : List Float} (h : j.Computes b c depth pre x mid)
    (h' : ∀ st ls vars, j.Leads ⟨a, pre' ++ st, ls, vars⟩ ⟨b, pre ++ st, ls, vars⟩) :
    j.Computes a c depth pre' x mid := by
  intro env v env' ts st hy hlen hdepth
  obtain ⟨hnames, hlead⟩ := h ts st hy hlen hdepth
  exact ⟨hnames, (h' st _ _).trans hlead⟩

theorem after (h : j.Computes a b depth pre x mid)
    (h' : ∀ st ls vars, j.Leads ⟨b, st, ls, vars⟩ ⟨c, st, ls, vars⟩) :
    j.Computes a c depth pre x mid := by
  intro env v env' ts st hy hlen hdepth
  obtain ⟨hnames, hlead⟩ := h ts st hy hlen hdepth
  exact ⟨hnames, hlead.trans (h' _ _ _)⟩

theorem frame (h : j.Computes a b depth pre x mid) (extra : List Float) :
    j.Computes a b depth (pre ++ extra) x (fun v => mid v ++ extra) := by
  intro env v env' ts st hy hlen hdepth
  simpa only [List.append_assoc] using h ts (extra ++ st) hy hlen hdepth

theorem mono (h : j.Computes a b depth pre x mid) {depth' : Nat} (hle : depth ≤ depth') :
    j.Computes a b depth' pre x mid := by
  intro env v env' ts st hy hlen hdepth
  exact h ts st hy hlen (by omega)

theorem of_except {r : Except Error α} (h : ∀ v, r = .ok v → ∀ st ls vars,
    j.Leads ⟨a, pre ++ st, ls, vars⟩ ⟨b, mid v ++ st, ls, vars⟩) :
    j.Computes a b depth pre (Eval.ofExcept r) mid := by
  intro env v env' ts st hy _ _
  obtain ⟨hr, rfl⟩ := Eval.yields_ofExcept.1 hy
  exact ⟨rfl, h v hr st _ _⟩

theorem of_pure {v : α} (h : ∀ st ls vars,
    j.Leads ⟨a, pre ++ st, ls, vars⟩ ⟨b, mid v ++ st, ls, vars⟩) :
    j.Computes a b depth pre (pure v) mid := by
  intro env u env' ts st hy _ _
  obtain ⟨rfl, rfl⟩ := Eval.yields_pure.1 hy
  exact ⟨rfl, h st _ _⟩

end Computes

/-! ## Names -/

variable {k : Nat} {name : Bytes}

theorem computes_valueOf (h : j.Has k (.withName .rcl name)) (hname : ProperName name) :
    j.Computes k (k + 1) depth [] (Eval.valueOf name) (fun v => [v]) := by
  intro env v env' ts st hy hlen _
  obtain ⟨hv, rfl⟩ := Eval.yields_ofExcept.1 hy
  refine ⟨rfl, h.calculates (.fetch rfl rfl ?_)⟩
  rw [← hv]
  exact valueIn_levelsOf hname hlen

theorem storeIn_levelsOf {env env' : Env} {u : Unit} {x : Float} {ts : List Tally}
    (hname : ProperName name) (hlen : ts.length = env.scopes.length)
    (hy : (Eval.assign name x).Yields env u env') :
    Level.storeIn (levelsOf env.scopes ts) env.vars name x
        = (levelsOf env'.scopes ts, env'.vars) ∧
      env'.scopes.map Prod.fst = env.scopes.map Prod.fst := by
  obtain rfl := Eval.yields_modify.1 hy
  rw [Level.storeIn, update?_levelsOf hname x hlen]
  by_cases hf : (Assoc.find? env.scopes name).isSome = true
  · simp only [hf, if_true]
    exact ⟨trivial, map_fst_put _ _ _ hf⟩
  · simp only [hf, Bool.false_eq_true, if_false]
    exact ⟨trivial, trivial⟩

theorem computes_assign (h : j.Has k (.withName .sto name)) (hname : ProperName name) (x : Float) :
    j.Computes k (k + 1) depth [x] (Eval.assign name x) (fun _ => [x]) := by
  intro env u env' ts st hy hlen _
  obtain ⟨hstore, hnames⟩ := storeIn_levelsOf hname hlen hy
  have hlead : j.Leads ⟨k, x :: st, levelsOf env.scopes ts, env.vars⟩ _ :=
    leads_store h rfl rfl fun _ _ => rfl
  rw [show (Instr.withName .sto name).operand.text = name from rfl, hstore] at hlead
  exact ⟨hnames, hlead⟩

/-! ## Compiled lines -/

variable {code : List Instr} {com : Command}

/-- The lines of the program are the stored lines of the code. -/
structure Hosts (j : Job) (code : List Instr) : Prop where
  has : ∀ k i, code[k]? = some i → j.Has k i.stored
  length : code.length = j.lines.length

theorem Hosts.plain (h : j.Hosts code) (hk : code[k]? = some (.plain com)) (hc : com ≠ .number) :
    j.Has k (.plain com) := by
  have := h.has k _ hk
  rwa [Instr.stored_plain hc] at this

theorem Hosts.withName (h : j.Hosts code) (hk : code[k]? = some (.withName com name))
    (hc : com ≠ .number) : j.Has k (.withName com name) := by
  have := h.has k _ hk
  rwa [Instr.stored_withName hc] at this

theorem Hosts.withNum {n : Int32} (h : j.Hosts code) (hk : code[k]? = some (.withNum com n))
    (hc : com ≠ .number) : j.Has k (.withNum com n) := by
  have := h.has k _ hk
  rwa [Instr.stored_withNum hc] at this

theorem leads_ofNumber {value : UInt64} {text : Bytes} {st : List Float} {ls : List Level}
    {vars : Variables} (h : j.Hosts code) (hk : code[k]? = some (.ofNumber value text))
    (hv : value ≠ Binary64.zero true) {x : Float} (hx : Float.ofBits value = x) :
    j.Leads ⟨k, st, ls, vars⟩ ⟨k + 1, x :: st, ls, vars⟩ := by
  subst hx
  have hlead : j.Leads ⟨k, st, ls, vars⟩ _ := (h.has k _ hk).calculates (.number rfl)
  rwa [show (Instr.ofNumber value text).stored.operand.value = value by
    simp [Instr.stored, Instr.ofNumber, hv]] at hlead

theorem Hosts.toInt_ofNat {n : Nat} (h : j.Hosts code) (hn : n ≤ code.length + 1) :
    (Int32.ofNat n).toInt = n := by
  have hlen := length_le_length_textOf j.lines
  have hshort := j.short
  have hlength := h.length
  have hword : Int32.size = 4294967296 := rfl
  rw [Int32.toInt_ofNat', Int.bmod_eq_of_le] <;> omega

end Job

end Keystroke
