import Keystroke.Proofs.Compile.Sum

set_option autoImplicit false

/-! # Compiled expressions compute their values

Wherever the lines of an expression stand in a program, with its subroutines somewhere else in it,
they compute the value of the expression (`Expr.computes_eval`). -/

namespace Keystroke

open List Code

variable {name : Bytes} {xs : List Float} {depth : Nat}

variable {j : Job} {code : List Instr} {lineOf : Nat → Nat} {a b k : Nat}

/-! ## Operations -/

namespace Job

variable {x y v : Float} {st : List Float} {ls : List Level} {vars : Variables}

theorem leads_binary {op : BinaryOp} (h : j.Has k (.plain op.command)) (hv : op.value y x = .ok v) :
    j.Leads ⟨k, x :: y :: st, ls, vars⟩ ⟨k + 1, v :: st, ls, vars⟩ := by
  cases op with
  | add | sub | mul | div | pow | equation => exact h.calculates (.arith rfl hv)
  | eq | ne | lt | le | gt | ge =>
    obtain rfl := Except.ok.inj hv
    exact h.calculates (.compare rfl)
  | and | or | xor =>
    obtain rfl := Except.ok.inj hv
    exact h.calculates (.connect rfl)

theorem command_ne_number (op : BinaryOp) : op.command ≠ .number := by
  cases op <;> decide

theorem leads_unary {op : UnaryOp} (h : j.Hosts code) (hk : Code.Laid code lineOf k op.lines)
    (hv : op.value x = .ok v) :
    j.Leads ⟨k, x :: st, ls, vars⟩ ⟨k + width op.lines, v :: st, ls, vars⟩ := by
  cases op with
  | neg => exact (h.plain hk.1 (by decide)).calculates (.real rfl hv)
  | pos =>
    obtain rfl := Except.ok.inj hv
    exact .refl j _
  | not =>
    obtain rfl := Except.ok.inj hv
    exact (h.plain hk.1 (by decide)).calculates (.invert rfl)

theorem standard_cases {n : Nat} {c : Command} (h : NameTable.standard.command? name n = some c) :
    (name = utf8 "IP" ∧ n = 1 ∧ c = .integerPart) ∨ (name = utf8 "FP" ∧ n = 1 ∧ c = .fractionPart) ∨
    (name = utf8 "SIGN" ∧ n = 1 ∧ c = .sign) ∨ (name = utf8 "MOD" ∧ n = 2 ∧ c = .mod) ∨
    (name = utf8 "PI" ∧ n = 0 ∧ c = .pi) := by
  unfold NameTable.command? at h
  split at h
  · next entry hentry =>
    split at h
    · next hn =>
      obtain rfl := Option.some_inj.1 h
      obtain ⟨before, after, hsplit, -⟩ := lookup_eq_some_iff.1 hentry
      have hmem : (name, entry) ∈ NameTable.standard := by rw [hsplit]; simp
      simp only [NameTable.standard, mem_cons, Prod.mk.injEq, not_mem_nil, or_false]
        at hmem
      rcases hmem with ⟨rfl, rfl⟩ | ⟨rfl, rfl⟩ | ⟨rfl, rfl⟩ | ⟨rfl, rfl⟩ | ⟨rfl, rfl⟩ <;>
        simp only at hn <;> simp <;> omega
    · exact absurd h (by simp)
  · exact absurd h (by simp)

/-- A call of a standard name takes its arguments off the stack, the last one on top. -/
theorem leads_standard (h : j.Hosts code)
    (hk : code[k]? = some (Expr.callLine .standard name xs.length))
    (hname : (NameTable.standard.command? name xs.length).isSome) (hv : callValue name xs = .ok v) :
    j.Leads ⟨k, xs.reverse ++ st, ls, vars⟩ ⟨k + 1, v :: st, ls, vars⟩ := by
  obtain ⟨c, hc⟩ := Option.isSome_iff_exists.1 hname
  rcases standard_cases hc with ⟨rfl, hn, rfl⟩ | ⟨rfl, hn, rfl⟩ | ⟨rfl, hn, rfl⟩ | ⟨rfl, hn, rfl⟩ |
    ⟨rfl, hn, rfl⟩
  iterate 3
    · obtain ⟨x, rfl⟩ := length_eq_one_iff.1 hn
      exact (h.plain hk (by decide)).calculates (.real rfl hv)
  · obtain ⟨y, x, rfl⟩ := length_eq_two.1 hn
    exact (h.plain hk (by decide)).calculates (.arith rfl hv)
  · obtain rfl := length_eq_zero_iff.1 hn
    obtain rfl := Except.ok.inj hv
    exact (h.plain hk (by decide)).calculates (.pi rfl)

theorem computes_item (h : j.Has k (.withName .getItem name)) (x : Float) :
    j.Computes k (k + 1) depth [x]
      (do let env ← get; Eval.ofExcept (env.vars.item name (indexOf x)) : Eval Float)
      (fun v => [v]) := by
  intro env v env' ts st hy _ _
  simp only [Eval.yields_bind, Eval.yields_get, Eval.yields_ofExcept] at hy
  obtain ⟨_, _, ⟨rfl, rfl⟩, hv, rfl⟩ := hy
  exact ⟨rfl, h.calculates (.item rfl hv)⟩

/-- A condition: the test skips the jump to the branch that holds. -/
theorem computes_conditional {condition yes no : Eval Float} {p q : Nat} (h : j.Hosts code)
    (hif : code[p]? = some (.plain .ifTrue))
    (hjump : code[p + 1]? = some (.withNum .gtol (.ofNat (q + 2))))
    (hend : code[q]? = some (.withNum .gtol (.ofNat (b + 1)))) (hb : b ≤ code.length)
    (hcondition : j.Computes a p depth [] condition (fun v => [v]))
    (hno : j.Computes (p + 2) q depth [] no (fun v => [v]))
    (hyes : j.Computes (q + 1) b depth [] yes (fun v => [v])) :
    j.Computes a b depth [] (do let x ← condition; if x == 0 then no else yes) (fun v => [v]) := by
  have hq := (List.getElem?_eq_some_iff.1 hend).1
  have hjump := h.withNum hjump (by decide)
  have hskip : ∀ (x : Float) st ls vars, j.Leads ⟨p, [x] ++ st, ls, vars⟩
      ⟨if x == 0 then p + 2 else p + 1, st, ls, vars⟩ := fun x st ls vars =>
    leads_skipUnless (h.plain hif (by decide)) hjump rfl
  have hgoYes : ∀ st ls vars, j.Leads ⟨p + 1, st, ls, vars⟩ ⟨q + 1, st, ls, vars⟩ :=
    fun st ls vars => leads_goto hjump rfl (by simp [Instr.withNum]) (h.toInt_ofNat (by omega))
  have hgoEnd : ∀ st ls vars, j.Leads ⟨q, st, ls, vars⟩ ⟨b, st, ls, vars⟩ :=
    fun st ls vars => leads_goto (h.withNum hend (by decide)) rfl (by simp [Instr.withNum])
      (h.toInt_ofNat (by omega))
  refine hcondition.bind fun x => ?_
  by_cases hx : (x == 0) = true
  · rw [if_pos hx]
    refine (hno.after hgoEnd).before fun st ls vars => ?_
    have := hskip x st ls vars
    rwa [if_pos hx] at this
  · rw [if_neg hx]
    refine hyes.before fun st ls vars => ?_
    have := hskip x st ls vars
    rw [if_neg hx] at this
    exact this.trans (hgoYes st ls vars)

end Job

/-! ## Expressions -/

/-- What an expression added stands in the code, its stream from line `a` on. -/
structure Standing (code : List Instr) (lineOf : Nat → Nat) (a : Nat) (x : Emitted) : Prop where
  stream : Code.Laid code lineOf a x.stream
  subroutines : ∀ sub ∈ x.subroutines, ∃ k, Code.Laid code lineOf k (sub ++ [returnLine])

namespace Standing

variable {x y : Emitted} {cs : List CodeLine}

theorem snoc (h : Standing code lineOf a ⟨x.stream ++ cs, x.subroutines, x.labels⟩) :
    Standing code lineOf a x ∧ Code.Laid code lineOf (a + width x.stream) cs := by
  obtain ⟨hx, hcs⟩ := (laid_append _ _).1 h.stream
  exact ⟨⟨hx, h.subroutines⟩, hcs⟩

theorem append (h : Standing code lineOf a (x.append y)) :
    Standing code lineOf a x ∧ Standing code lineOf (a + width x.stream) y := by
  obtain ⟨hx, hy⟩ := (laid_append _ _).1 h.stream
  exact ⟨⟨hx, fun sub hs => h.subroutines sub (mem_append_left _ hs)⟩,
    hy, fun sub hs => h.subroutines sub (mem_append_right _ hs)⟩

end Standing

namespace Expr

theorem length_evalAll {target : Bytes} {es : List Expr} {env env' : Env}
    (h : (evalAll target es).Yields env xs env') : xs.length = es.length := by
  induction es generalizing env env' xs with
  | nil =>
    obtain ⟨rfl, -⟩ := Eval.yields_pure.1 h
    rfl
  | cons e es ih =>
    simp only [evalAll, Eval.yields_bind, Eval.yields_pure] at h
    obtain ⟨x, env1, -, xs', env2, hxs, rfl, -⟩ := h
    simp [ih hxs]

mutual

theorem computes_eval {n a : Nat} (h : j.Hosts code) (e : Expr) (hp : e.Proper)
    (hcalls : ∀ c ∈ e.calls, (NameTable.standard.command? c.1 c.2).isSome)
    (hs : Standing code lineOf a (e.emitted .standard n)) :
    j.Computes a (a + width (e.emitted .standard n).stream) e.sumDepth []
      (e.eval j.target) (fun v => [v]) := by
  cases e with
  | literal p value text =>
    rw [eval]
    exact .of_pure fun st ls vars =>
      Job.leads_ofNumber h hs.stream.1 hp.1 (Float.ofBits_toBits value)
  | var p name | fetch p name =>
    rw [eval]
    exact Job.computes_valueOf (h.withName hs.stream.1 (by decide)) hp
  | solving p name =>
    rw [eval]
    exact .of_pure fun st ls vars =>
      (h.withName hs.stream.1 (by decide)).calculates (.solving rfl)
  | group p e | tagged p name e =>
    rw [eval, sumDepth, emitted]
    rw [emitted] at hs
    exact computes_eval h e hp hcalls hs
  | unary p op e =>
    rw [eval, sumDepth, emitted, width_append, ← Nat.add_assoc]
    rw [emitted] at hs
    obtain ⟨he, hop⟩ := hs.snoc
    refine (computes_eval h e hp hcalls he).bind fun x => .of_except fun v hv st ls vars => ?_
    exact Job.leads_unary h hop hv
  | apply p fn e =>
    rw [eval, sumDepth, emitted, width_append, ← Nat.add_assoc]
    rw [emitted] at hs
    obtain ⟨he, hop, -⟩ := hs.snoc
    refine (computes_eval h e hp hcalls he).bind fun x => .of_except fun v hv st ls vars => ?_
    exact (h.plain hop (by cases fn <;> decide)).calculates (.real (by cases fn <;> rfl) hv)
  | assign p name e =>
    rw [eval, sumDepth, emitted, width_append, ← Nat.add_assoc]
    rw [emitted] at hs
    obtain ⟨he, hop, -⟩ := hs.snoc
    refine (computes_eval h e hp.2 hcalls he).bind fun x => ?_
    refine (Job.computes_assign (h.withName hop (by decide)) hp.1 x).bind fun _ => ?_
    exact .of_pure fun st ls vars => .refl j _
  | item p name e bracket =>
    rw [eval, sumDepth, emitted, width_append, ← Nat.add_assoc]
    rw [emitted] at hs
    obtain ⟨he, hop, -⟩ := hs.snoc
    refine (computes_eval h e hp.2 hcalls he).bind fun x => ?_
    exact Job.computes_item (h.withName hop (by decide)) x
  | binary p op l r =>
    rw [eval, sumDepth, emitted, width_append, width_append, ← Nat.add_assoc, ← Nat.add_assoc]
    rw [emitted] at hs
    obtain ⟨hparts, hop, -⟩ := Standing.snoc (x := Emitted.append _ _) hs
    obtain ⟨hl, hr⟩ := hparts.append
    rw [Emitted.append, width_append, ← Nat.add_assoc] at hop
    rw [calls] at hcalls
    have hleft := computes_eval h l hp.1 (fun c hc => hcalls c (mem_append_left _ hc)) hl
    have hright := computes_eval h r hp.2 (fun c hc => hcalls c (mem_append_right _ hc)) hr
    refine (hleft.mono (Nat.le_max_left _ _)).bind fun y => ?_
    refine ((hright.frame [y]).mono (Nat.le_max_right _ _)).bind fun x => ?_
    refine .of_except fun v hv st ls vars => ?_
    exact Job.leads_binary (h.plain hop (Job.command_ne_number op)) hv
  | extremum p greatest es =>
    rw [eval, sumDepth, emitted, width_append, ← Nat.add_assoc]
    rw [emitted] at hs
    obtain ⟨hes, hop, -⟩ := hs.snoc
    refine (computes_evalAll h es hp hcalls hes).bind_of_yields fun xs hxs => ?_
    obtain ⟨env, env', hxs⟩ := hxs
    have hlen := length_evalAll hxs
    have hmany := length_le_width_emittedAll .standard es n
    have hlast := (List.getElem?_eq_some_iff.1 hop).1
    have hcount : (Int32.ofNat es.length).toInt = es.length := h.toInt_ofNat (by omega)
    rw [← hlen] at hcount hop
    obtain _ | ⟨x, rest⟩ := xs
    · intro env v env' ts st hy
      exact absurd hy Eval.not_yields_throw
    · refine .of_pure fun st ls vars => ?_
      cases greatest with
      | true => exact (h.withNum hop (by decide)).calculates (.extremum rfl hcount)
      | false => exact (h.withNum hop (by decide)).calculates (.extremum rfl hcount)
  | call p name es =>
    rw [eval, sumDepth, emitted, width_append, ← Nat.add_assoc]
    rw [emitted] at hs
    obtain ⟨hes, hop, -⟩ := hs.snoc
    rw [calls] at hcalls
    have hargs := computes_evalAll h es hp.2 (fun c hc => hcalls c (mem_cons_of_mem _ hc)) hes
    refine hargs.bind_of_yields fun xs ⟨env, env', hxs⟩ => .of_except fun v hv st ls vars => ?_
    have hname := hcalls _ mem_cons_self
    rw [← length_evalAll hxs] at hop hname
    exact Job.leads_standard h hop hname hv
  | conditional p condition yes no =>
    obtain ⟨hstream, hsubs⟩ := hs
    simp only [emitted, append_assoc, laid_append] at hstream
    simp only [emitted, mem_append] at hsubs
    obtain ⟨hcondition, ⟨hif, hyes, -⟩, hno, ⟨hend, hyesLine, -⟩, hyesLaid, hendLine, -⟩ := hstream
    rw [Int.toNat_natCast] at hyes hend
    rw [hyesLine] at hyes
    rw [hendLine] at hend
    rw [calls] at hcalls
    have hc := computes_eval h condition hp.1 (fun c hc => hcalls c (by simp [hc]))
      ⟨hcondition, fun sub hs => hsubs sub (.inl (.inl hs))⟩
    have hn := computes_eval h no hp.2.2 (fun c hc => hcalls c (by simp [hc]))
      ⟨hno, fun sub hs => hsubs sub (.inl (.inr hs))⟩
    have hy := computes_eval h yes hp.2.1 (fun c hc => hcalls c (by simp [hc]))
      ⟨hyesLaid, fun sub hs => hsubs sub (.inr hs)⟩
    have hb := hyesLaid.le (width_emitted_pos _ yes _)
    rw [eval, sumDepth, emitted]
    simp only [width_append, ← Nat.add_assoc]
    exact Job.computes_conditional h hif hyes hend hb (hc.mono (Nat.le_max_left _ _))
      (hn.mono (by omega)) (hy.mono (by omega))
  | sigma p index first last step body =>
    obtain ⟨hstream, hsubs⟩ := hs
    simp only [emitted, append_assoc, laid_append] at hstream
    simp only [emitted, mem_append, mem_singleton] at hsubs
    obtain ⟨hlastLaid, hstepLaid, hfirstLaid, hcall, -⟩ := hstream
    rw [Int.toNat_natCast] at hcall
    rw [calls] at hcalls
    have hl := computes_eval h last hp.2.2.1 (fun c hc => hcalls c (by simp [hc]))
      ⟨hlastLaid, fun sub hs => hsubs sub (.inl (.inl (.inl (.inl hs))))⟩
    have ht := computes_eval h step hp.2.2.2.1 (fun c hc => hcalls c (by simp [hc]))
      ⟨hstepLaid, fun sub hs => hsubs sub (.inl (.inl (.inl (.inr hs))))⟩
    have hf := computes_eval h first hp.2.1 (fun c hc => hcalls c (by simp [hc]))
      ⟨hfirstLaid, fun sub hs => hsubs sub (.inl (.inl (.inr hs)))⟩
    obtain ⟨k, hk⟩ := hsubs _ (.inr rfl)
    -- the body stands in a subroutine, so where it lies is not known beforehand
    have hbody := fun b hb => computes_eval h body hp.2.2.2.2 (fun c hc => hcalls c (by simp [hc]))
      (a := b) ⟨hb, fun sub hs => hsubs sub (.inl (.inr hs))⟩
    rw [eval, sumDepth, emitted, width_append, width_append, width_append]
    simp only [← Nat.add_assoc]
    refine (hl.mono (by omega)).bind fun l => ?_
    refine ((ht.frame [l]).mono (by omega)).bind fun t => ?_
    refine ((hf.frame [t, l]).mono (by omega)).bind fun f => ?_
    exact (Job.computes_sum h hcall hk hp.1 hbody).mono (by omega)

theorem computes_evalAll {n a : Nat} (h : j.Hosts code) (es : List Expr) (hp : ProperAll es)
    (hcalls : ∀ c ∈ callsAll es, (NameTable.standard.command? c.1 c.2).isSome)
    (hs : Standing code lineOf a (emittedAll .standard es n)) :
    j.Computes a (a + width (emittedAll .standard es n).stream) (sumDepthAll es) []
      (evalAll j.target es) reverse := by
  cases es with
  | nil =>
    rw [evalAll]
    exact .of_pure fun st ls vars => .refl j _
  | cons e es =>
    rw [evalAll, sumDepthAll, emittedAll, width_append, ← Nat.add_assoc]
    rw [emittedAll] at hs
    obtain ⟨he, hes⟩ := Standing.append hs
    rw [callsAll] at hcalls
    have hfirst := computes_eval h e hp.1 (fun c hc => hcalls c (mem_append_left _ hc)) he
    have hrest := computes_evalAll h es hp.2 (fun c hc => hcalls c (mem_append_right _ hc)) hes
    refine (hfirst.mono (Nat.le_max_left _ _)).bind fun x => ?_
    refine ((hrest.frame [x]).mono (Nat.le_max_right _ _)).bind fun xs => ?_
    refine .of_pure fun st ls vars => ?_
    rw [reverse_cons]
    exact .refl j _

end

end Expr

end Keystroke
