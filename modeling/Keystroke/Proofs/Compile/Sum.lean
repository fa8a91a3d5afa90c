import Keystroke.Proofs.Compile.Block

set_option autoImplicit false

/-! # Compiled sums

The subroutine of a sum moves its bounds from the stack to local variables, and then makes a turn
for each term. One turn of the machine is one turn of the evaluator (`Job.leads_turn`), so the loop
ends where the evaluator's does, with the same total (`Job.leads_loop`). -/

namespace Keystroke

variable {first last step count total : Float} {env env' : Env}

/-! ## The variables of a sum -/

/-- The innermost scope is that of the index. -/
def Within (index : Bytes) (scopes : List (Bytes × Float)) : Prop :=
  ∃ x rest, scopes = (index, x) :: rest

theorem Within.of_map_fst {index : Bytes} {scopes scopes' : List (Bytes × Float)}
    (h : Within index scopes) (hnames : scopes'.map Prod.fst = scopes.map Prod.fst) :
    Within index scopes' := by
  obtain ⟨x, rest, rfl⟩ := h
  obtain _ | ⟨⟨name, y⟩, rest'⟩ := scopes'
  · exact absurd hnames (by simp)
  · obtain rfl : name = index := (List.cons.inj hnames).1
    exact ⟨y, rest', rfl⟩

theorem names_ne : stepName ≠ countName ∧ stepName ≠ totalName ∧ countName ≠ totalName := by decide

/-- The variables of the innermost sum are found in its level, and changed there. -/
structure Tallied (scopes : List (Bytes × Float)) (t : Tally) (ts : List Tally) (vars : Variables) :
    Prop where
  step : Level.valueIn (levelsOf scopes (t :: ts)) vars stepName = .ok t.step
  count : Level.valueIn (levelsOf scopes (t :: ts)) vars countName = .ok t.count
  total : Level.valueIn (levelsOf scopes (t :: ts)) vars totalName = .ok t.total
  storeCount (r : Float) : Level.storeIn (levelsOf scopes (t :: ts)) vars countName r
    = (levelsOf scopes ({ t with count := r } :: ts), vars)
  storeTotal (r : Float) : Level.storeIn (levelsOf scopes (t :: ts)) vars totalName r
    = (levelsOf scopes ({ t with total := r } :: ts), vars)

theorem Within.tallied {index : Bytes} {scopes : List (Bytes × Float)} {t : Tally}
    {ts : List Tally} {vars : Variables} (hw : Within index scopes) (h : ProperName index) :
    Tallied scopes t ts vars := by
  obtain ⟨x, rest, rfl⟩ := hw
  obtain ⟨hs, hn, ha⟩ := h.ne
  obtain ⟨hsn, hsa, hna⟩ := names_ne
  constructor <;> intros <;>
    simp [levelsOf, Level.valueIn, Level.lookup?, Level.storeIn, Level.update?, Tally.level,
      Assoc.find?, Assoc.put, hs.symm, hn.symm, ha.symm, hsn, hsa, hna]

namespace Job

variable {j : Job} {code : List Instr} {lineOf : Nat → Nat} {index : Bytes} {k : Nat}
  {st : List Float} {ls : List Level} {vars : Variables} {x y r : Float}

theorem leads_moveToLocal {name : Bytes} {l : Level} (h : j.Hosts code)
    (hk : Code.Laid code lineOf k (moveToLocal name)) :
    j.Leads ⟨k, x :: st, l :: ls, vars⟩
      ⟨k + 2, st, { l with locals := l.locals.put name x } :: ls, vars⟩ := by
  obtain ⟨hlsto, hdrop, -⟩ := hk
  exact (leads_storeLocal (h.withName hlsto (by decide)) rfl).trans
    ((h.plain hdrop (by decide)).calculates (.drop rfl))

theorem termCount_eq_ok (h : Eval.termCount first last step = .ok count) :
    ∃ span steps terms, ArithOp.sub.eval last first = .ok span ∧
      ArithOp.div.eval span step = .ok steps ∧ ArithOp.add.eval steps 1 = .ok terms ∧
      RealFn.integerPart.eval terms = .ok count := by
  unfold Eval.termCount at h
  cases hspan : ArithOp.sub.eval last first with
  | error e => simp [hspan, bind, Except.bind] at h
  | ok span =>
    cases hsteps : ArithOp.div.eval span step with
    | error e => simp [hspan, hsteps, bind, Except.bind] at h
    | ok steps =>
      cases hterms : ArithOp.add.eval steps 1 with
      | error e => simp [hspan, hsteps, hterms, bind, Except.bind] at h
      | ok terms =>
        simpa [hspan, hsteps, hterms, bind, Except.bind] using h

/-- The start of a subroutine: the index, the step, the count and the total become variables. -/
theorem leads_sumPrologue {back : Nat} (h : j.Hosts code)
    (hk : Code.Laid code lineOf k (sumPrologue index)) (hindex : ProperName index)
    (hcount : Eval.termCount first last step = .ok count) :
    j.Leads ⟨k, first :: step :: last :: st, ⟨back, []⟩ :: ls, vars⟩
      ⟨k + 16, st, Tally.level ⟨back, step, count, 0⟩ (index, first) :: ls, vars⟩ := by
  obtain ⟨span, steps, terms, hspan, hsteps, hterms, hcount⟩ := termCount_eq_ok hcount
  obtain ⟨hs, hn, ha⟩ := hindex.ne
  obtain ⟨hsn, hsa, hna⟩ := names_ne
  simp only [sumPrologue, List.append_assoc, Code.laid_append] at hk
  obtain ⟨hindexTo, hstepTo, ⟨hrcl, hsub, hrcl', hdiv, hone, hadd, hip, -⟩, hcountTo,
    ⟨hzero, -⟩, htotalTo⟩ := hk
  refine (leads_moveToLocal h hindexTo).trans ?_
  refine (leads_moveToLocal h hstepTo).trans ?_
  refine ((h.withName hrcl (by decide)).calculates (.fetch rfl rfl
    (show Level.valueIn _ _ index = .ok first by
      simp [Level.valueIn, Level.lookup?, Assoc.put, Assoc.find?, hs.symm]))).trans ?_
  refine ((h.plain hsub (by decide)).calculates (.arith rfl hspan)).trans ?_
  refine ((h.withName hrcl' (by decide)).calculates (.fetch rfl rfl
    (show Level.valueIn _ _ stepName = .ok step by
      simp [Level.valueIn, Level.lookup?, Assoc.put, Assoc.find?, hs.symm]))).trans ?_
  refine ((h.plain hdiv (by decide)).calculates (.arith rfl hsteps)).trans ?_
  refine (leads_ofNumber (x := 1) h hone (by decide) (by decide)).trans ?_
  refine ((h.plain hadd (by decide)).calculates (.arith rfl hterms)).trans ?_
  refine ((h.plain hip (by decide)).calculates (.real rfl hcount)).trans ?_
  refine (leads_moveToLocal h hcountTo).trans ?_
  refine (leads_ofNumber (x := 0) h hzero (by decide) (by decide)).trans ?_
  refine (leads_moveToLocal h htotalTo).trans ?_
  have hlocals : Assoc.put (Assoc.put (Assoc.put (Assoc.put [] index first) stepName step)
      countName count) totalName 0
      = [(index, first), (stepName, step), (countName, count), (totalName, 0)] := by
    simp [Assoc.put, hs.symm, hn.symm, ha.symm, hsn, hsa, hna]
  rw [hlocals]
  exact .refl j _

/-! ## Turns -/

variable {body m loop done depth : Nat} {t : Tally} {ts : List Tally} {eval : Eval Float}
  {scopes : List (Bytes × Float)}

/-- The test in front of a turn: out of the loop when no term is left, or on to the body. -/
theorem leads_sumTest (h : j.Hosts code) (hk : Code.Laid code lineOf k (sumTest loop done))
    (hdone : lineOf done = m + 1) (hm : m ≤ code.length) (hindex : ProperName index)
    (hw : Within index scopes) :
    j.Leads ⟨k, st, levelsOf scopes (t :: ts), vars⟩
      ⟨if t.count ≤ 0 then m else k + 5, st, levelsOf scopes (t :: ts), vars⟩ := by
  obtain ⟨-, hrcl, hzero, htest, hif, hgoto, -⟩ := hk
  rw [Int.toNat_natCast, hdone] at hgoto
  have hjump := h.withNum hgoto (by decide)
  refine ((h.withName hrcl (by decide)).calculates
    (.fetch rfl rfl (hw.tallied hindex).count)).trans ?_
  refine (leads_ofNumber (x := 0) h hzero (by decide) (by decide)).trans ?_
  refine ((h.plain htest (by decide)).calculates (.compare rfl)).trans ?_
  refine (leads_skipUnless (h.plain hif (by decide)) hjump rfl).trans ?_
  by_cases hc : t.count ≤ 0
  · have htrue : (truth (Comparison.le.holds t.count 0) == 0) = false := by
      rw [Comparison.holds, decide_eq_true hc]
      decide
    rw [if_pos hc, htrue, if_neg (by simp)]
    exact leads_goto hjump rfl (by simp [Instr.withNum]) (h.toInt_ofNat (by omega))
  · have hfalse : (truth (Comparison.le.holds t.count 0) == 0) = true := by
      rw [Comparison.holds, decide_eq_false hc]
      decide
    rw [if_neg hc, hfalse, if_pos rfl]
    exact .refl j _

theorem leads_sumEpilogue {u : Unit} {term : Float} (h : j.Hosts code)
    (hm : Code.Laid code lineOf m (sumEpilogue index loop done)) (hloop : lineOf loop = k + 1)
    (hk : k ≤ code.length) (hindex : ProperName index) (hw : Within index env.scopes)
    (hlen : (t :: ts).length = env.scopes.length)
    (htotal : ArithOp.add.eval t.total term = .ok total)
    (hy : (Eval.valueOf index).Yields env y env) (hx : ArithOp.add.eval y t.step = .ok x)
    (hassign : (Eval.assign index x).Yields env u env')
    (hcount : ArithOp.sub.eval t.count 1 = .ok count) :
    env'.scopes.map Prod.fst = env.scopes.map Prod.fst ∧
    j.Leads ⟨m, term :: st, levelsOf env.scopes (t :: ts), env.vars⟩
      ⟨k, st, levelsOf env'.scopes ({ t with count := count, total := total } :: ts),
        env'.vars⟩ := by
  obtain ⟨hstoTotal, hdrop, hrcl, hstoIndex, hdrop', hone, hstoCount, hdrop'', hgoto, -⟩ := hm
  rw [Int.toNat_natCast, hloop] at hgoto
  have hlen' : ({ t with total := total } :: ts).length = env.scopes.length := hlen
  obtain ⟨hstore, hnames⟩ := storeIn_levelsOf hindex hlen' hassign
  obtain ⟨hvalue, -⟩ := Eval.yields_ofExcept.1 hy
  have hvalueIn := (valueIn_levelsOf hindex hlen').trans hvalue
  have hw' := hw.of_map_fst hnames
  refine ⟨hnames, ?_⟩
  have hadd : j.Leads ⟨m, term :: st, levelsOf env.scopes (t :: ts), env.vars⟩ _ :=
    leads_store (h.withName hstoTotal (by decide)) rfl rfl fun _ hs =>
      hs.combined (hw.tallied hindex).total htotal
  rw [show (Instr.withName .stoAdd totalName).operand.text = totalName from rfl,
    (hw.tallied hindex).storeTotal] at hadd
  refine hadd.trans (((h.plain hdrop (by decide)).calculates (.drop rfl)).trans ?_)
  refine ((h.withName hrcl (by decide)).calculates
    (.fetch rfl rfl (hw.tallied hindex).step)).trans ?_
  have hgoOn : j.Leads ⟨m + 3, t.step :: st,
      levelsOf env.scopes ({ t with total := total } :: ts), env.vars⟩ _ :=
    leads_store (h.withName hstoIndex (by decide)) rfl rfl fun _ hs => hs.combined hvalueIn hx
  rw [show (Instr.withName .stoAdd index).operand.text = index from rfl, hstore] at hgoOn
  refine hgoOn.trans (((h.plain hdrop' (by decide)).calculates (.drop rfl)).trans ?_)
  refine (leads_ofNumber (x := 1) h hone (by decide) (by decide)).trans ?_
  have hdown : j.Leads ⟨m + 6, 1 :: st,
      levelsOf env'.scopes ({ t with total := total } :: ts), env'.vars⟩ _ :=
    leads_store (h.withName hstoCount (by decide)) rfl rfl fun _ hs =>
      hs.combined (hw'.tallied hindex).count hcount
  rw [show (Instr.withName .stoSubtract countName).operand.text = countName from rfl,
    (hw'.tallied hindex).storeCount] at hdown
  refine hdown.trans (((h.plain hdrop'' (by decide)).calculates (.drop rfl)).trans ?_)
  exact leads_goto (h.withNum hgoto (by decide)) rfl (by simp [Instr.withNum])
    (h.toInt_ofNat (by omega))

theorem leads_turn (h : j.Hosts code) (hbody : j.Computes body m depth [] eval (fun v => [v]))
    (hm : Code.Laid code lineOf m (sumEpilogue index loop done)) (hloop : lineOf loop = k + 1)
    (hk : k ≤ code.length) (hindex : ProperName index) (hw : Within index env.scopes)
    (hlen : (t :: ts).length = env.scopes.length)
    (hdepth : ((t :: ts).length + depth : Int) ≤ j.depth)
    (hturn : (Eval.sumTurn index t.step eval t.count t.total).Yields env (count, total) env') :
    env'.scopes.map Prod.fst = env.scopes.map Prod.fst ∧
    j.Leads ⟨body, st, levelsOf env.scopes (t :: ts), env.vars⟩
      ⟨k, st, levelsOf env'.scopes ({ t with count := count, total := total } :: ts),
        env'.vars⟩ := by
  simp only [Eval.sumTurn, Eval.yields_bind, Eval.yields_ofExcept, Eval.yields_pure,
    Prod.mk.injEq] at hturn
  obtain ⟨term, env1, hterm, _, _, ⟨htotal, rfl⟩, y, env2, hy, x, _, ⟨hx, rfl⟩, u, env3, hassign, _,
    _, ⟨hcount, rfl⟩, ⟨rfl, rfl⟩, rfl⟩ := hturn
  obtain rfl : env1 = env2 := (Eval.yields_ofExcept.1 hy).2
  obtain ⟨hnames, hlead⟩ := hbody (t :: ts) st hterm hlen hdepth
  obtain ⟨hnames', hlead'⟩ := leads_sumEpilogue h hm hloop hk hindex (hw.of_map_fst hnames)
    (length_of_map_fst hnames hlen) htotal hy hx hassign hcount
  exact ⟨hnames'.trans hnames, hlead.trans hlead'⟩

theorem leads_loop {back : Nat} {v : Float} (h : j.Hosts code)
    (hk : Code.Laid code lineOf k (sumTest loop done))
    (hbody : j.Computes (k + 5) m depth [] eval (fun v => [v]))
    (hm : Code.Laid code lineOf m (sumEpilogue index loop done)) (hend : m + 9 ≤ code.length)
    (hle : k ≤ code.length) (hindex : ProperName index) (hw : Within index env.scopes)
    (hlen : ts.length + 1 = env.scopes.length) (hdepth : (ts.length + 1 + depth : Int) ≤ j.depth)
    (hrun : Eval.sumLoop index step eval count total env = some (.ok (v, env'))) :
    env'.scopes.map Prod.fst = env.scopes.map Prod.fst ∧
    ∃ count', j.Leads ⟨k, st, levelsOf env.scopes (⟨back, step, count, total⟩ :: ts), env.vars⟩
      ⟨m + 9, st, levelsOf env'.scopes (⟨back, step, count', v⟩ :: ts), env'.vars⟩ := by
  have hloop : lineOf loop = k + 1 := hk.1
  have hdone : lineOf done = m + 9 + 1 := hm.2.2.2.2.2.2.2.2.2.1
  refine Eval.sumLoop_induction (P := fun count total env v env' => Within index env.scopes →
    ts.length + 1 = env.scopes.length → env'.scopes.map Prod.fst = env.scopes.map Prod.fst ∧
    ∃ count', j.Leads ⟨k, st, levelsOf env.scopes (⟨back, step, count, total⟩ :: ts), env.vars⟩
      ⟨m + 9, st, levelsOf env'.scopes (⟨back, step, count', v⟩ :: ts), env'.vars⟩)
    ?_ ?_ hrun hw hlen
  · intro count total env hc hw hlen
    have htest : j.Leads ⟨k, st, levelsOf env.scopes (⟨back, step, count, total⟩ :: ts), env.vars⟩
        _ := leads_sumTest h hk hdone hend hindex hw
    rw [if_pos hc] at htest
    exact ⟨rfl, count, htest⟩
  · intro count total env count' total' mid v env' hc hturn ih hw hlen
    have htest : j.Leads ⟨k, st, levelsOf env.scopes (⟨back, step, count, total⟩ :: ts), env.vars⟩
        _ := leads_sumTest h hk hdone hend hindex hw
    rw [if_neg hc] at htest
    obtain ⟨hnames, hlead⟩ := leads_turn (t := ⟨back, step, count, total⟩) h hbody hm hloop hle
      hindex hw hlen hdepth hturn
    obtain ⟨hnames', count'', hlead'⟩ := ih (hw.of_map_fst hnames) (length_of_map_fst hnames hlen)
    exact ⟨hnames'.trans hnames, count'', htest.trans (hlead.trans hlead')⟩

/-! ## Sums -/

theorem computes_sum {n a : Nat} {stream : List CodeLine} (h : j.Hosts code)
    (hcall : code[a]? = some (.withNum .xeql (.ofNat (lineOf (n + 1)))))
    (hk : Code.Laid code lineOf k (.label (n + 1) :: (sumPrologue index ++
      sumTest (n + 2) (n + 3) ++ stream ++ sumEpilogue index (n + 2) (n + 3)) ++
        [Code.returnLine])) (hindex : ProperName index)
    (hbody : ∀ b, Code.Laid code lineOf b stream →
      j.Computes b (b + Code.width stream) depth [] eval (fun v => [v])) :
    j.Computes a (a + 1) (depth + 1) [first, step, last]
      (Eval.sum index first last step eval) (fun v => [v]) := by
  simp only [List.cons_append, List.append_assoc, Code.Laid, Code.laid_append] at hk
  obtain ⟨hline, hprologue, htest, hstream, hepilogue, hreturn, -⟩ := hk
  change Code.Laid code lineOf (k + 16) _ at htest
  change code[k + 21 + Code.width stream + 10]? = _ at hreturn
  have hend := (List.getElem?_eq_some_iff.1 hreturn).1
  have htotal : code[k + 21 + Code.width stream + 9]? = some (.withName .rcl totalName) :=
    hepilogue.2.2.2.2.2.2.2.2.2.2.1
  rw [hline] at hcall
  intro env v env' ts st hy hlen hdepth
  simp only [Eval.sum, Eval.yields_bind, Eval.yields_ofExcept, Eval.yields_modify,
    Eval.yields_pure] at hy
  obtain ⟨count, _, ⟨hcount, rfl⟩, u, _, rfl, total, env2, hrun, u', _, rfl, rfl, rfl⟩ := hy
  have hw : Within index ((index, first) :: env.scopes) := ⟨first, env.scopes, rfl⟩
  have hloop : env2.scopes.map Prod.fst = ((index, first) :: env.scopes).map Prod.fst ∧
      ∃ count', j.Leads ⟨k + 16, st,
          levelsOf ((index, first) :: env.scopes) (⟨a + 1, step, count, 0⟩ :: ts), env.vars⟩
        ⟨k + 21 + Code.width stream + 9, st,
          levelsOf env2.scopes (⟨a + 1, step, count', total⟩ :: ts), env2.vars⟩ :=
    leads_loop h htest (hbody _ hstream) hepilogue (by omega) (by omega) hindex hw (by simp [hlen])
      (by push_cast at hdepth; omega) hrun
  obtain ⟨hnames, count', hlead⟩ := hloop
  have hw' : Within index env2.scopes := hw.of_map_fst hnames
  have hroom : ((levelsOf env.scopes ts).length : Int) < j.depth := by
    rw [levelsOf, List.length_zipWith]
    omega
  have hsub : (Int32.ofNat (k + 1)).toInt = k + 1 := h.toInt_ofNat (by omega)
  refine ⟨by simpa using congrArg List.tail hnames, ?_⟩
  refine (leads_call (h.withNum hcall (by decide)) rfl (by simp [Instr.withNum]) hsub
    hroom).trans ?_
  refine (leads_sumPrologue h hprologue hindex hcount).trans (hlead.trans ?_)
  refine ((h.withName htotal (by decide)).calculates
    (.fetch rfl rfl (hw'.tallied hindex).total)).trans ?_
  obtain ⟨x, rest, hscopes⟩ := hw'
  rw [hscopes]
  exact leads_return (h.plain hreturn (by decide)) rfl

end Job

end Keystroke
