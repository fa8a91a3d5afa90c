import Keystroke.Proofs.Compile.Totality
import Keystroke.Proofs.Fingerprint.Lockstep

set_option autoImplicit false

/-! # Equal fingerprints, equal behaviour

The bytes that a fingerprint is taken of determine the form of an equation that is not too long
(`Expr.exact_formBelow`), so equations with the same bytes differ in the names of sum indices at
most. Their programs are twins then, and evaluating them shows the same
(`Equation.evaluate_eq_of_serialize_eq`). -/

namespace Keystroke

open Operation Session Code

variable {e : Expr} {s s' : Store}

/-! ## Forms that are written exactly -/

theorem NameRef.exact_resolve {name : Bytes} (h : ProperName name) (indices : List Bytes) :
    (NameRef.resolve indices name).Exact := by
  have hshort := h.short
  unfold NameRef.resolve
  split
  · trivial
  · rw [NameRef.Exact]
    rw [maxNameLength] at hshort
    omega

namespace Expr

section

variable (names : NameTable)

theorem width_all (x : Emitted) : width x.all = width x.stream + width x.subroutines.flatten := by
  rw [Emitted.all, width_append]

mutual

/-- The form of a proper tree with code that is not too long is written exactly. -/
theorem exact_formBelow (e : Expr) (n : Nat) (indices : List Bytes) (hp : e.Proper)
    (hw : width (e.emitted names n).all < 2147483648) : (e.formBelow indices).Exact := by
  cases e with
  | literal p value text => exact hp.1
  | var p name | fetch p name | solving p name => exact NameRef.exact_resolve hp indices
  | group p e | tagged p name e =>
    rw [emitted] at hw
    exact exact_formBelow e n indices hp hw
  | unary p op e | apply p fn e =>
    simp only [emitted, width_all, width_append] at hw
    exact exact_formBelow e n indices hp (by rw [width_all]; omega)
  | assign p name e | item p name e bracket =>
    simp only [emitted, width_all, width_append] at hw
    exact ⟨NameRef.exact_resolve hp.1 indices,
      exact_formBelow e n indices hp.2 (by rw [width_all]; omega)⟩
  | binary p op l r =>
    simp only [emitted, width_all, width_append, List.flatten_append] at hw
    exact ⟨exact_formBelow l n indices hp.1 (by rw [width_all]; omega),
      exact_formBelow r (l.emitted names n).labels indices hp.2 (by rw [width_all]; omega)⟩
  | extremum p greatest es =>
    have hmany := length_le_width_emittedAll names es n
    simp only [emitted, width_all, width_append] at hw
    exact ⟨by rw [length_formBelowAll]; omega,
      exactAll_formBelowAll es n indices hp (by rw [width_all]; omega)⟩
  | call p name es =>
    have hmany := length_le_width_emittedAll names es n
    have hshort := hp.1.short
    rw [maxNameLength] at hshort
    simp only [emitted, width_all, width_append] at hw
    exact ⟨by omega, by rw [length_formBelowAll]; omega,
      exactAll_formBelowAll es n indices hp.2 (by rw [width_all]; omega)⟩
  | conditional p condition yes no =>
    have hparts : ∀ {own c n y limit : Nat}, own + (c + n + y) < limit →
        c < limit ∧ n < limit ∧ y < limit := by omega
    rw [← width_perm (perm_conditional names p condition yes no n)] at hw
    simp only [width_append] at hw
    obtain ⟨hc, hn, hy⟩ := hparts hw
    exact ⟨exact_formBelow condition _ indices hp.1 hc, exact_formBelow yes _ indices hp.2.1 hy,
      exact_formBelow no _ indices hp.2.2 hn⟩
  | sigma p index first last step body =>
    have hparts : ∀ {own l s f b limit : Nat}, own + (l + s + f + b) < limit →
        l < limit ∧ s < limit ∧ f < limit ∧ b < limit := by omega
    rw [← width_perm (perm_sigma names p index first last step body n)] at hw
    simp only [width_append] at hw
    obtain ⟨hl, hs, hf, hb⟩ := hparts hw
    obtain ⟨-, hfirst, hlast, hstep, hbody⟩ := hp
    exact ⟨exact_formBelow first _ indices hfirst hf, exact_formBelow last _ indices hlast hl,
      exact_formBelow step _ indices hstep hs, exact_formBelow body _ (index :: indices) hbody hb⟩

theorem exactAll_formBelowAll (es : List Expr) (n : Nat) (indices : List Bytes)
    (hp : ProperAll es) (hw : width (emittedAll names es n).all < 2147483648) :
    Form.ExactAll (formBelowAll indices es) := by
  cases es with
  | nil => trivial
  | cons e es =>
    simp only [emittedAll, width_all, width_append, List.flatten_append] at hw
    exact ⟨exact_formBelow e n indices hp.1 (by rw [width_all]; omega),
      exactAll_formBelowAll es (e.emitted names n).labels indices hp.2 (by rw [width_all]; omega)⟩

end

end

theorem Fits.form_eq {compat : Bool} {r : Rank} {c : Context} (h : e.Fits compat r c) :
    e.form = e.formBelow [] := by
  cases e with
  | tagged => exact h.elim
  | _ => rfl

/-- Every call of the expression stands for a command that calculates. -/
def Calculates (names : NameTable) (e : Expr) : Prop :=
  ∀ c ∈ e.calls, ∃ command, names.command? c.1 c.2 = some command ∧ command.calculates = true

theorem Calculates.storable {names : NameTable} (h : e.Calculates names) :
    ∀ c ∈ e.calls, (callLine names c.1 c.2).Storable := by
  intro c hc
  obtain ⟨command, hcommand, hcalculates⟩ := h c hc
  rw [callLine, hcommand]
  exact Instr.storable_plain (Bool.and_eq_true_iff.1 hcalculates).1

theorem Calculates.standard (h : ∀ c ∈ e.calls, (NameTable.standard.command? c.1 c.2).isSome) :
    e.Calculates .standard := by
  intro c hc
  obtain ⟨command, hcommand⟩ := Option.isSome_iff_exists.1 (h c hc)
  refine ⟨command, hcommand, ?_⟩
  rcases Job.standard_cases hcommand with ⟨-, -, rfl⟩ | ⟨-, -, rfl⟩ | ⟨-, -, rfl⟩ | ⟨-, -, rfl⟩ |
    ⟨-, -, rfl⟩ <;> rfl

section

variable {names : NameTable} {e : Expr}

theorem exists_code (hcalls : ∀ c ∈ e.calls, (callLine names c.1 c.2).Storable) (hp : e.Proper)
    (hsize : e.codeSize names < 2147483648) :
    ∃ code, (e.program names).resolve = .ok code ∧ (∀ i ∈ code, i.Storable) ∧
      (code.map Instr.size).sum < 2147483648 := by
  obtain ⟨code, lineOf, hresolve, -⟩ := e.resolve_program names
  rw [codeSize, hresolve] at hsize
  exact ⟨code, hresolve, storable_program hp hcalls hresolve (length_lt_of_size hsize), hsize⟩

/-- A program that was compiled is one that the store can run, in the first slot that was free. -/
theorem exists_job {code : List Instr} {ref : ProgramRef}
    (hresolve : (e.program names).resolve = .ok code) (hcode : ∀ i ∈ code, i.Storable)
    (hsize : (code.map Instr.size).sum < 2147483648) (hcompile : e.compile names s = .ok ref s') :
    ∃ (j : Job) (slot : Store), ref = j.ref ∧ j.Hosts code ∧ j.Loaded s' ∧
      Store.newEquationSlot s = .ok j.ref slot := by
  rcases compile_cases s hresolve (fun i hi => (hcode i hi).emittable) (Store.room_of_small hsize)
    with ⟨k, ls, p, store, hrun, -, hp, hholds, hwrites, -⟩ | ⟨-, failure, store, hrun⟩
  · obtain ⟨rfl, rfl⟩ := EStateM.Result.ok.inj (hrun.symm.trans hcompile)
    obtain ⟨slot, hslot, -⟩ := slot_and_code_of_compile hcompile
    have hls := Line.forall₂_stores hwrites hcode
    exact ⟨Job.ofCode k [] 0 0 hls hcode hsize, slot, rfl, Job.hosts_ofCode hls hcode hsize,
      Job.loaded_ofCode hls hcode hsize hp hholds, hslot⟩
  · cases hrun.symm.trans hcompile

end

end Expr

/-! ## Evaluating twin programs -/

namespace Session

/-- What evaluating shows: the value or the error, and the variables. -/
def answer : EStateM.Result Error Session Float → Except Error Float × Variables
  | .ok v s => (.ok v, s.vars)
  | .error e s => (.error e, s.vars)

section

variable {V : Variables → Variables → Prop} {E : Error → Error → Prop} {s₁ s₂ : Session}

theorem Shows.top {op : Machine Unit} (h : Shows V E (op s₁) (op s₂))
    (hfew : E .tooFewArguments .tooFewArguments) :
    Shows V E ((do op; top : Machine Float) s₁) ((do op; top : Machine Float) s₂) := by
  generalize h1 : op s₁ = r1 at h
  generalize h2 : op s₂ = r2 at h
  cases h with
  | error he hvars =>
    rw [bind_error h1, bind_error h2]
    exact .error he hvars
  | @ok _ t1 t2 hstack hvars =>
    rw [bind_ok h1, bind_ok h2]
    cases hs : t2.stack with
    | nil =>
      rw [top_of_nil hs, top_of_nil (hstack.trans hs)]
      exact .error hfew hvars
    | cons x rest =>
      rw [top_of_cons hs, top_of_cons (hstack.trans hs)]
      exact .ok hstack hvars

theorem Shows.answer_eq {r1 r2 : EStateM.Result Error Session Float} (h : Shows Eq Eq r1 r2) :
    answer r1 = answer r2 := by
  cases h with
  | ok _ hvars => rw [answer, answer, hvars]
  | error he hvars => rw [answer, answer, he, hvars]

end

end Session

namespace Job

variable {S : Sharing} {W : Nat → Place → Prop} {j₁ j₂ : Job}

/-- A program is started at its first line, at no level. -/
theorem Loaded.runs {j : Job} {store : Store} (h : j.Loaded store) {s : Session} {calls : CallStack}
    (hcalls : s.calls.Emptied calls) (inputs : List Float) :
    j.Runs 0 [] (s.started j inputs calls store) where
  loaded := h
  current := rfl
  pc := rfl
  running := rfl
  level := hcalls.level
  locals _ := rfl
  stopLevel := hcalls.stopLevel
  cursor := hcalls.cursor
  slots := hcalls.slots

/-- Evaluating twin programs in sessions that share what the programs look at shows the same. -/
theorem Twin.shows_evaluate (tw : j₁.Twin S W j₂) {s₁ s₂ : Session} (h1 : s₁.calls.WellFormed)
    (h2 : s₂.calls.WellFormed) (hloaded1 : j₁.Loaded s₁.store) (hloaded2 : j₂.Loaded s₂.store)
    (hvars : S.Vars s₁.vars s₂.vars) (hlastX : S.LastX → s₁.lastX = s₂.lastX)
    (hsolving : s₁.solvingFor = s₂.solvingFor) (hlimit : s₁.stepLimit = s₂.stepLimit)
    (hmax : s₁.calls.max = s₂.calls.max) (inputs : List Float) (cancelled : Bool) :
    Session.Shows S.Vars S.Errors (evaluate j₁.ref inputs cancelled s₁)
      (evaluate j₂.ref inputs cancelled s₂) := by
  obtain ⟨calls1, st1, hempty1, hst1, heval1⟩ := evaluate_eq_run h1 hloaded1 inputs cancelled
  obtain ⟨calls2, st2, hempty2, hst2, heval2⟩ := evaluate_eq_run h2 hloaded2 inputs cancelled
  rw [heval1, heval2]
  refine Session.Shows.top (tw.bisimulation.shows_run (.running (k := 0) (p := .top) ?_) cancelled)
    (S.ordinary (by simp [Error.causes]))
  exact
    { place := tw.top
      levels := ⟨[], [], hst1.runs hempty1 inputs, hst2.runs hempty2 inputs, rfl, rfl⟩
      agree :=
        { stack := rfl
          lastX := hlastX
          vars := hvars
          solvingFor := hsolving
          stepLimit := hlimit
          max := (hempty1.max.trans hmax).trans hempty2.max.symm
          func := hempty1.func.trans hempty2.func.symm
          funcs := rfl }
      declared := fun h => absurd rfl h }

end Job

/-! ## Equations -/

namespace Equation

variable {compat : Bool} {source : Bytes} {e : Equation} {names : NameTable}

theorem exact_form (h : parse compat source = .ok e)
    (hsize : e.tree.codeSize names < 2147483648) : e.form.Exact := by
  obtain ⟨hfits, hname, -⟩ := fits_of_parse h
  obtain ⟨code, lineOf, hresolve, -⟩ := e.tree.resolve_program names
  rw [Expr.codeSize, hresolve] at hsize
  have hwidth := e.tree.width_emitted_lt names hresolve
  have hlen := Expr.length_lt_of_size hsize
  rw [maxNameLength] at hname
  refine ⟨by omega, ?_⟩
  rw [hfits.form_eq]
  exact e.tree.exact_formBelow names 0 [] hfits.proper (by omega)

/-- An equation that was read can be compiled, unless memory is limited. -/
theorem exists_compile {s : Session} (h : parse compat source = .ok e)
    (hcalls : e.tree.Calculates names) (hsize : e.tree.codeSize names < 2147483648)
    (hs : s.calls.WellFormed) (hstore : s.store.Unlimited) :
    ∃ f s', edit (e.compile names) s = .ok f s' := by
  obtain ⟨hfits, -, hprogram⟩ := fits_of_parse h
  obtain ⟨code, hresolve, hcode, hsmall⟩ := Expr.exists_code hcalls.storable hfits.proper hsize
  obtain ⟨k, -, -, store, htree, -⟩ := Expr.compile_eq_ok hstore hresolve hcode hsmall
  have hrun : e.compile names s.store
      = .ok { e with names := names, program := .equation k } store := by
    rw [compile, if_neg (by simp [hprogram]), bind_ok htree]
    rfl
  obtain ⟨s', hedit, -⟩ := edit_eq_ok hs hrun
  exact ⟨_, s', hedit⟩

theorem compile_tree {f : Equation} (hprogram : e.program = .none)
    (h : e.compile names s = .ok f s') : e.tree.compile names s = .ok f.program s' := by
  rw [compile, if_neg (by simp [hprogram])] at h
  cases hrun : e.tree.compile names s with
  | error failure store =>
    rw [bind_error hrun] at h
    cases h
  | ok ref store =>
    rw [bind_ok hrun] at h
    obtain ⟨rfl, rfl⟩ := EStateM.Result.ok.inj h
    rfl

/-- Equations that are read from texts and have the same bytes behave alike when compiled: the
    programs give the same value or the same error in a session, and leave the same variables. The
    equations have the names in `ITEM` and `S` in common, and no call is a jump or a test. -/
theorem evaluate_eq_of_serialize_eq {compat₁ compat₂ : Bool} {source₁ source₂ : Bytes}
    {e₁ e₂ f₁ f₂ : Equation} (h₁ : parse compat₁ source₁ = .ok e₁)
    (h₂ : parse compat₂ source₂ = .ok e₂) (hform : e₁.form.serialize = e₂.form.serialize)
    (hlookups : e₁.tree.lookups = e₂.tree.lookups) (hnested : e₁.tree.sumDepth ≤ 65536)
    (hcalls₁ : e₁.tree.Calculates names) (hcalls₂ : e₂.tree.Calculates names)
    (hsize₁ : e₁.tree.codeSize names < 2147483648) (hsize₂ : e₂.tree.codeSize names < 2147483648)
    {s s₁ s₂ : Session} (hs : s.calls.Arises)
    (hcompile₁ : Session.edit (e₁.compile names) s = .ok f₁ s₁)
    (hcompile₂ : Session.edit (e₂.compile names) s = .ok f₂ s₂) (inputs : List Float)
    (cancelled : Bool) :
    Session.answer (Session.evaluate f₁.program inputs cancelled s₁)
      = Session.answer (Session.evaluate f₂.program inputs cancelled s₂) := by
  obtain ⟨hfits₁, -, hprogram₁⟩ := fits_of_parse h₁
  obtain ⟨hfits₂, -, hprogram₂⟩ := fits_of_parse h₂
  have hforms := Form.serialize_inj (exact_form h₁ hsize₁) (exact_form h₂ hsize₂) hform
  obtain ⟨-, htrees⟩ := Form.equation.inj hforms
  rw [hfits₁.form_eq, hfits₂.form_eq] at htrees
  have halike : Expr.Alike names [] e₁.tree e₂.tree :=
    { form := htrees
      lookups := hlookups
      left := hfits₁.proper
      right := hfits₂.proper
      calls := hcalls₁
      depth := by simpa using hnested }
  obtain ⟨code₁, hresolve₁, hcode₁, hsmall₁⟩ :=
    Expr.exists_code hcalls₁.storable hfits₁.proper hsize₁
  obtain ⟨code₂, hresolve₂, hcode₂, hsmall₂⟩ :=
    Expr.exists_code hcalls₂.storable hfits₂.proper hsize₂
  obtain ⟨store₁, hrun₁, hfollows₁⟩ := exists_of_edit_eq_ok hs.wellFormed hcompile₁
  obtain ⟨store₂, hrun₂, hfollows₂⟩ := exists_of_edit_eq_ok hs.wellFormed hcompile₂
  obtain ⟨j₁, slot₁, href₁, hhosts₁, hloaded₁, hslot₁⟩ :=
    Expr.exists_job hresolve₁ hcode₁ hsmall₁ (compile_tree hprogram₁ hrun₁)
  obtain ⟨j₂, slot₂, href₂, hhosts₂, hloaded₂, hslot₂⟩ :=
    Expr.exists_job hresolve₂ hcode₂ hsmall₂ (compile_tree hprogram₂ hrun₂)
  have hslot : j₁.slot = j₂.slot :=
    ProgramRef.equation.inj (EStateM.Result.ok.inj (hslot₁.symm.trans hslot₂)).1
  obtain ⟨t, rfl, rfl, hwhole⟩ := (Expr.paired_emitted _ _ halike 0).exists_twinCode hresolve₁
    hresolve₂ (Expr.length_lt_of_size hsmall₁)
  have htwin := hwhole.twin (fun n c _ => by rw [Job.ref, Job.ref, hslot]; rfl) hhosts₁ hhosts₂
  rw [href₁, href₂]
  exact (htwin.shows_evaluate hfollows₁.calls hfollows₂.calls (hloaded₁.noted hfollows₁.store)
    (hloaded₂.noted hfollows₂.store) (hfollows₁.vars.trans hfollows₂.vars.symm)
    (fun _ => hfollows₁.lastX.trans hfollows₂.lastX.symm)
    (hfollows₁.solvingFor.trans hfollows₂.solvingFor.symm)
    (hfollows₁.stepLimit.trans hfollows₂.stepLimit.symm)
    (hfollows₁.max.trans hfollows₂.max.symm) inputs cancelled).answer_eq

/-- One sum, with an index `I` and with an index `K` in parentheses. -/
theorem evaluate_eq_of_renamed_index :
    ∃ e₁ e₂ f₁ f₂ s₁ s₂, parse false (utf8 "IP(SIGMA(I:A:B:A:I))") = .ok e₁ ∧
      parse false (utf8 "IP(SIGMA(K:A:B:A:(K)))") = .ok e₂ ∧
      Session.edit (e₁.compile .standard) Expr.twoVariables = .ok f₁ s₁ ∧
      Session.edit (e₂.compile .standard) Expr.twoVariables = .ok f₂ s₂ ∧
      Session.answer (Session.evaluate f₁.program [0] false s₁)
        = Session.answer (Session.evaluate f₂.program [0] false s₂) := by
  obtain ⟨e₁, e₂, h₁, h₂, hform, hlookups, hnested, hIP₁, hIP₂, hsize₁, hsize₂⟩ :
      ∃ e₁ e₂, parse false (utf8 "IP(SIGMA(I:A:B:A:I))") = .ok e₁ ∧
        parse false (utf8 "IP(SIGMA(K:A:B:A:(K)))") = .ok e₂ ∧
        e₁.form.serialize = e₂.form.serialize ∧ e₁.tree.lookups = e₂.tree.lookups ∧
        e₁.tree.sumDepth ≤ 65536 ∧ e₁.tree.calls = [(utf8 "IP", 1)] ∧
        e₂.tree.calls = [(utf8 "IP", 1)] ∧ e₁.tree.codeSize .standard < 2147483648 ∧
        e₂.tree.codeSize .standard < 2147483648 :=
    ⟨_, _, rfl, rfl, by decide +kernel, by decide +kernel, by decide +kernel, by decide +kernel,
      by decide +kernel, by decide +kernel, by decide +kernel⟩
  have hcalls₁ : e₁.tree.Calculates .standard := .standard (by rw [hIP₁]; decide)
  have hcalls₂ : e₂.tree.Calculates .standard := .standard (by rw [hIP₂]; decide)
  have hs : Expr.twoVariables.calls.Arises := .new 1024
  have hstore : Expr.twoVariables.store.Unlimited := ⟨by decide, by decide⟩
  obtain ⟨f₁, s₁, hcompile₁⟩ := exists_compile h₁ hcalls₁ hsize₁ hs.wellFormed hstore
  obtain ⟨f₂, s₂, hcompile₂⟩ := exists_compile h₂ hcalls₂ hsize₂ hs.wellFormed hstore
  exact ⟨e₁, e₂, f₁, f₂, s₁, s₂, h₁, h₂, hcompile₁, hcompile₂,
    evaluate_eq_of_serialize_eq h₁ h₂ hform hlookups hnested hcalls₁ hcalls₂ hsize₁ hsize₂ hs
      hcompile₁ hcompile₂ [0] false⟩

end Equation

end Keystroke
