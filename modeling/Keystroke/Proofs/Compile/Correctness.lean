import Keystroke.Proofs.Compile.Storing
import Keystroke.Proofs.Machine.Returns

set_option autoImplicit false

/-! # Compiled equations compute their values

Compiling a tree into a new slot and evaluating the program gives what evaluating the tree gives:
the value, and the variables and matrices that it leaves (`Expr.evaluate_compile`). -/

namespace Keystroke

open Operation Session

/-! ## The run of a whole program -/

namespace Job

variable {j : Job} {s : Session} {k : Nat} {i : Instr} {st : List Float} {vars : Variables}

theorem Loaded.noted {s s' : Store} (h : j.Loaded s) (hs : s.Renoted s') : j.Loaded s' := by
  induction hs with
  | refl => exact h
  | tail _ hnotes ih => exact ih.notes hnotes

/-- The session is about to perform the first line, with nothing pending. -/
structure Starts (j : Job) (st : List Float) (vars : Variables) (s : Session) : Prop
    extends j.Ready 0 s where
  target : s.solvingFor = j.target
  calls : CallStack.Emptied { max := j.depth } s.calls
  locals : s.locals = []
  funcs : s.funcs = []
  stack : s.stack = st
  vars : s.vars = vars

theorem Starts.declare (h : j.Starts st vars s) (hk : j.Has 0 (.withNum .func 11)) (hst : st ≠ [])
    (hbase : j.base = st.length - 1) : ∃ s', s.Reaches s' ∧ j.At ⟨1, st, [], vars⟩ s' := by
  obtain ⟨l, hk, hl⟩ := hk
  obtain ⟨store, hloaded, hstep⟩ := h.step_eq hk
  have hc : (Instr.withNum .func 11).command.action? = some .func := rfl
  rw [read_eq (List.mem_of_getElem? hk) (by rw [hl, hc]; simp), hl,
    perform_func (s := { s with store := store }) hc rfl h.calls.level
      (by rw [h.stack]; exact hst)] at hstep
  dsimp only at hstep
  rw [proceed_of_running] at hstep
  swap
  · exact h.running
  refine ⟨_, .single ⟨h.running, h.unlimited, hstep⟩, ?_⟩
  exact
    { loaded := hloaded
      current := h.current
      pc := rfl
      running := h.running
      unlimited := h.unlimited
      target := h.target
      depth := h.calls.max
      stopLevel := h.calls.stopLevel
      cursor := h.calls.cursor
      declared := rfl
      record := by
        simp [h.funcs, h.stack, hbase, Assoc.put, Assoc.find?]
      slots := h.calls.slots
      level := h.calls.level
      locals := fun n => by simp [h.locals, Level.localsAt]
      stack := h.stack
      vars := h.vars }

/-- The return at the end stops the machine; the value takes the place of the input. -/
theorem At.stop {v : Float} (h : j.At ⟨k, v :: st, [], vars⟩ s) (hk : j.Has k (.plain .rtn))
    (hbase : j.base = st.length - 1) :
    ∃ s', s.Steps s' ∧ s'.running = false ∧ s'.stack = v :: st.tail ∧ s'.vars = vars := by
  obtain ⟨l, hk, hl⟩ := hk
  obtain ⟨store, hloaded, hstep⟩ := h.step_eq hk
  have hc : (Instr.plain .rtn).command.action? = some .leave := rfl
  have hkeep : keepOutputs s.stack ⟨j.base, 1⟩ = .ok (v :: st.tail) := by
    have hheight : ((v :: st).length : Int) - j.base = 2 := by
      rw [hbase, List.length_cons]
      omega
    rw [h.stack, keepOutputs]
    simp only [hheight]
    simp
  rw [read_eq (List.mem_of_getElem? hk) (by rw [hl, hc]; simp), hl,
    perform_leave_base_eq (s := { s with store := store }) hc h.level h.cursor h.declared
      h.record, hkeep] at hstep
  exact ⟨_, ⟨h.running, h.unlimited, hstep⟩, rfl, rfl, h.vars⟩

end Job

/-! ## Programs made of code -/

section

variable {code : List Instr} {ls : List Line}

theorem length_textOf_stores (h : List.Forall₂ Line.Stores ls code) :
    (textOf ls).length = (code.map Instr.size).sum := by
  induction h with
  | nil => rfl
  | cons hline _ ih =>
    rw [textOf_cons, List.length_append, ih, List.map_cons, List.sum_cons, ← hline.size_eq,
      Line.size]

theorem forall_stores {P : Line → Prop} (h : List.Forall₂ Line.Stores ls code)
    (hP : ∀ l i, l.Stores i → i ∈ code → P l) : ∀ l ∈ ls, P l := by
  induction h with
  | nil => simp
  | cons hline _ ih =>
    refine List.forall_mem_cons.2 ⟨hP _ _ hline List.mem_cons_self, ?_⟩
    exact ih fun l i hl hi => hP l i hl (List.mem_cons_of_mem _ hi)

namespace Job

/-- A program whose lines are those of some code. -/
def ofCode (slot : Int) (target : Bytes) (depth base : Int)
    (hls : List.Forall₂ Line.Stores ls code) (hcode : ∀ i ∈ code, i.Storable)
    (hsmall : (code.map Instr.size).sum < 2147483648) : Job where
  slot := slot
  lines := ls
  target := target
  depth := depth
  base := base
  short := by rwa [length_textOf_stores hls]
  clear := Line.Fresh.clearAll (forall_stores hls fun _ i h hi => h.fresh (hcode i hi))
  notEnd := forall_stores hls fun _ i h hi => h.isEnd_eq (hcode i hi)
  numbered := forall_stores hls fun _ i h hi =>
    ⟨h.command ▸ (hcode i hi).notGto, h.command ▸ (hcode i hi).notXeq⟩

theorem hosts_ofCode {slot : Int} {target : Bytes} {depth base : Int}
    (hls : List.Forall₂ Line.Stores ls code) (hcode : ∀ i ∈ code, i.Storable)
    (hsmall : (code.map Instr.size).sum < 2147483648) :
    (ofCode slot target depth base hls hcode hsmall).Hosts code where
  has k i hk := by
    obtain ⟨hlt, rfl⟩ := List.getElem?_eq_some_iff.1 hk
    have hlt' : k < ls.length := by rwa [hls.length_eq]
    exact ⟨ls[k], List.getElem?_eq_getElem hlt', (hls.get hlt' hlt).instr⟩
  length := hls.length_eq.symm

theorem loaded_ofCode {s : Store} {p : Program} {slot : Int} {target : Bytes} {depth base : Int}
    (hls : List.Forall₂ Line.Stores ls code) (hcode : ∀ i ∈ code, i.Storable)
    (hsmall : (code.map Instr.size).sum < 2147483648) (hp : s.program? (.equation slot) = some p)
    (hholds : p.Holds ls) : (ofCode slot target depth base hls hcode hsmall).Loaded s := by
  have hclear := (ofCode slot target depth base hls hcode hsmall).clear
  exact ⟨⟨p, ls, hp, hholds, hclear, coherent_of_clear _ hclear⟩⟩

end Job

end

/-! ## Evaluating -/

namespace Session

variable {j : Job} {s : Session}

/-- The session in which a program is started on some numbers. -/
def started (j : Job) (inputs : List Float) (calls : CallStack) (store : Store) (s : Session) :
    Session :=
  { s with
    calls := calls, store := store, current := j.ref, pc := 0, running := true, locals := [],
    funcs := [], stack := inputs.reverse }

/-- Evaluating a program in the store is running it with nothing pending. -/
theorem evaluate_eq_run (hs : s.calls.WellFormed) (hloaded : j.Loaded s.store)
    (inputs : List Float) (cancelled : Bool) :
    ∃ calls store, s.calls.Emptied calls ∧ j.Loaded store ∧
      evaluate j.ref inputs cancelled s
        = (do run cancelled; top : Machine Float) (s.started j inputs calls store) := by
  obtain ⟨calls, store, hreset, hempty, hreleased⟩ := reset_eq_ok hs
  have hloaded' := hloaded.noted hreleased
  obtain ⟨p, -, hp, -⟩ := hloaded'.program
  refine ⟨calls, store, hempty, hloaded', ?_⟩
  have hcall : call j.ref { s with
        calls := calls, store := store, running := false, locals := [], funcs := [],
        stack := inputs.reverse } = .ok () (s.started j inputs calls store) := by
    simp only [call, get_bind, hp]
    rfl
  rw [evaluate, bind_ok hreset, modify_bind, bind_ok hcall]

theorem evaluate_eq_ok {v : Float} {inputs rest : List Float} {vars : Variables}
    (hs : s.calls.WellFormed) (hlimit : s.stepLimit ≤ 0) (hloaded : j.Loaded s.store)
    (htarget : s.solvingFor = j.target) (hdepth : s.calls.max = j.depth)
    (hrun : ∀ s0, j.Starts inputs.reverse s.vars s0 → ∃ s1, s0.Reaches s1 ∧
      s1.running = false ∧ s1.stack = v :: rest ∧ s1.vars = vars) :
    ∃ s', evaluate j.ref inputs false s = .ok v s' ∧ s'.vars = vars := by
  obtain ⟨calls, store, hempty, hloaded', heval⟩ := evaluate_eq_run hs hloaded inputs false
  obtain ⟨s1, hreach, hstopped, hstack, hvars⟩ := hrun (s.started j inputs calls store)
    { loaded := hloaded'
      current := rfl
      pc := rfl
      running := rfl
      unlimited := hlimit
      target := htarget
      calls := { hempty with max := hempty.max.trans hdepth }
      locals := rfl
      funcs := rfl
      stack := rfl
      vars := rfl }
  obtain ⟨m, hm⟩ := runFrom_of_reaches hreach 0
  rw [runFrom_of_stopped hstopped] at hm
  have hrunning : run false (s.started j inputs calls store) = .ok () s1 := by
    simp only [run, Bool.and_false, Bool.false_eq_true, if_false, hm, Option.getD_some]
  exact ⟨s1, by rw [heval, bind_ok hrunning, top_of_cons hstack], hvars⟩

end Session

namespace Expr

/-- The number of bytes of the program compiled from an expression. -/
def codeSize (names : NameTable) (e : Expr) : Nat :=
  match (e.program names).resolve with
  | .ok code => (code.map Instr.size).sum
  | .error _ => 0

theorem length_lt_of_size {code : List Instr} (h : (code.map Instr.size).sum < 2147483648) :
    code.length < 2147483647 := by
  have hlen : 2 * code.length ≤ (code.map Instr.size).sum := by
    clear h
    induction code with
    | nil => simp
    | cons i code ih =>
      have := i.two_le_size
      rw [List.length_cons, List.map_cons, List.sum_cons]
      omega
  omega

/-- The program of an expression in the store runs to its end, with the value on the stack. -/
theorem exists_run {e : Expr} {j : Job} {code : List Instr} {s0 : Session} {st : List Float}
    {vars : Variables} {v : Float} {env : Env} (hp : e.Proper)
    (hcalls : ∀ c ∈ e.calls, (NameTable.standard.command? c.1 c.2).isSome)
    (hresolve : (e.program .standard).resolve = .ok code) (hhosts : j.Hosts code)
    (hdepth : (e.sumDepth : Int) ≤ j.depth) (hst : st ≠ []) (hbase : j.base = st.length - 1)
    (heval : (e.eval j.target).Yields ⟨[], vars⟩ v env) (hs0 : j.Starts st vars s0) :
    ∃ s1, s0.Reaches s1 ∧ s1.running = false ∧ s1.stack = v :: st.tail ∧ s1.vars = env.vars := by
  obtain ⟨code', lineOf, hresolve', hfunc, hstream, hreturn, hsubs⟩ := e.resolve_program .standard
  obtain rfl : code' = code := Except.ok.inj (hresolve'.symm.trans hresolve)
  obtain ⟨s1, hreach1, hs1⟩ := hs0.declare (hhosts.withNum hfunc (by decide)) hst hbase
  obtain ⟨hnames, hlead⟩ := computes_eval hhosts e hp hcalls ⟨hstream, hsubs⟩ [] st heval rfl
    (by simpa using hdepth)
  have hscopes : env.scopes = [] := List.map_eq_nil_iff.1 hnames
  rw [hscopes] at hlead
  obtain ⟨s2, hreach2, hs2⟩ := hlead s1 hs1
  obtain ⟨s3, hstep, hstopped, hstack, hvars⟩ := Job.At.stop hs2
    (hhosts.plain hreturn (by decide)) hbase
  exact ⟨s3, (hreach1.trans hreach2).tail hstep, hstopped, hstack, hvars⟩

end Expr

/-! ## Sessions as they can be -/

/-- The session has the settings of one that could be started, and a call stack that came about by
    operations. -/
structure Session.Valid (s : Session) : Prop where
  started : ∃ options fresh, new options = .ok fresh ∧ s.store.options = options.normalize
  calls : s.calls.Arises

/-- A store that could be made without a memory limit has a capacity that buffers can have. -/
theorem Store.unlimited_of_new {options : Options} {fresh s : Store}
    (hnew : Store.new options = .ok fresh) (hoptions : s.options = options.normalize)
    (hlimit : s.options.memoryLimit ≤ 0) : s.Unlimited := by
  refine ⟨hlimit, ?_⟩
  rw [hoptions] at hlimit ⊢
  by_contra hbig
  have hwanted : maxCapacity < max endBytes.length options.normalize.initialCapacity.toNat := by
    omega
  obtain ⟨t, halloc⟩ : ∃ t, allocate
      (max endBytes.length options.normalize.initialCapacity.toNat) endBytes.length 0
      { options := options.normalize } = .error .outOfBounds t := by
    simp [allocate, charge?, Int.not_lt.2 hlimit, hwanted]
  have hbuffer : newBuffer endBytes.length { options := options.normalize }
      = .error .outOfBounds t := by
    rw [newBuffer, get_bind, bind_error halloc]
  have hempty : emptyProgram false { options := options.normalize } = .error .outOfBounds t := by
    rw [emptyProgram, bind_error hbuffer]
  have hcrash : Store.new options = .error .outOfBounds := by
    simp only [Store.new, hempty]
    rfl
  rw [hcrash] at hnew
  cases hnew

theorem Session.Valid.unlimited {s : Session} (h : s.Valid)
    (hlimit : s.store.options.memoryLimit ≤ 0) : s.store.Unlimited := by
  obtain ⟨options, fresh, hnew, hoptions⟩ := h.started
  rw [new] at hnew
  cases hstore : Store.new options with
  | error e =>
    rw [hstore] at hnew
    cases hnew
  | ok store => exact Store.unlimited_of_new hstore hoptions hlimit

namespace Expr

/-- A tree that was parsed, or that solving it for a variable gave, is compiled into a new slot, and
    the program computes what the tree does: its value, and the variables and matrices that it
    leaves. Trees whose program would take 2 GiB or more are left out. -/
theorem evaluate_compile {compat : Bool} {text : Bytes} {t e : Expr}
    (hparse : parse compat text = .ok t) (he : e = t ∨ ∃ name, t.isolate name = .ok e)
    (hcalls : ∀ c ∈ e.calls, (NameTable.standard.command? c.1 c.2).isSome)
    (hsize : e.codeSize .standard < 2147483648)
    {s : Session} (hs : s.Valid) (hmemory : s.store.options.memoryLimit ≤ 0)
    (hsteps : s.stepLimit ≤ 0) (hdepth : (e.sumDepth : Int) ≤ s.calls.max)
    {inputs : List Float} (hinputs : inputs ≠ []) {v : Float} {vars : Variables}
    (heval : (e.eval s.solvingFor).Yields ⟨[], s.vars⟩ v ⟨[], vars⟩) :
    ∃ ref s₁ s₂, Session.edit (e.compile .standard) s = .ok ref s₁ ∧
      s.store.program? ref = none ∧
      Session.evaluate ref inputs false s₁ = .ok v s₂ ∧ s₂.vars = vars := by
  have hproper : e.Proper := by
    rcases he with rfl | ⟨name, he⟩
    · exact proper_of_parse hparse
    · exact proper_of_isolate hparse he
  obtain ⟨code, lineOf, hresolve, -⟩ := e.resolve_program .standard
  rw [codeSize, hresolve] at hsize
  have hcode := storable_program hproper (fun c hc => storable_callLine (hcalls c hc)) hresolve
    (length_lt_of_size hsize)
  obtain ⟨k, ls, p, store, hcompile, hnew, hprogram, hholds, hls, -⟩ :=
    compile_eq_ok (hs.unlimited hmemory) hresolve hcode hsize
  obtain ⟨s₁, hedit, hfollows⟩ := edit_eq_ok hs.calls.wellFormed hcompile
  have hhosts := @Job.hosts_ofCode _ _ k s.solvingFor s.calls.max (inputs.length - 1) hls hcode
    hsize
  have hloaded := @Job.loaded_ofCode _ _ _ _ k s.solvingFor s.calls.max (inputs.length - 1) hls
    hcode hsize hprogram hholds
  obtain ⟨s₂, hrun, hvars⟩ := evaluate_eq_ok hfollows.calls
    (by rw [hfollows.stepLimit]; exact hsteps) (hloaded.noted hfollows.store)
    hfollows.solvingFor hfollows.max fun s₀ hs₀ =>
      exists_run hproper hcalls hresolve hhosts hdepth (by simpa using hinputs)
        (by rw [List.length_reverse]; rfl) (by rw [hfollows.vars]; exact heval) hs₀
  exact ⟨.equation k, s₁, s₂, hedit, hnew, hrun, hvars⟩

/-- A session with two real variables and nothing else. -/
def twoVariables : Session where
  store := { options := {} }
  calls := .new 1024
  vars := { reals := [(utf8 "A", 2), (utf8 "B", 3)] }

/-- `IF(A<B:L(T:A*B):T)` as a tree. -/
def productIfLess : Expr :=
  .conditional 0 (.binary 4 .lt (.var 3 (utf8 "A")) (.var 5 (utf8 "B")))
    (.assign 7 (utf8 "T") (.binary 12 .mul (.var 11 (utf8 "A")) (.var 13 (utf8 "B"))))
    (.var 16 (utf8 "T"))

theorem productIfLess_yields :
    (productIfLess.eval []).Yields ⟨[], twoVariables.vars⟩ 6
      ⟨[], { reals := [(utf8 "A", 2), (utf8 "B", 3), (utf8 "T", 6)] }⟩ := by
  have hA : (Eval.valueOf (utf8 "A")).Yields ⟨[], twoVariables.vars⟩ 2
      ⟨[], twoVariables.vars⟩ := rfl
  have hB : (Eval.valueOf (utf8 "B")).Yields ⟨[], twoVariables.vars⟩ 3
      ⟨[], twoVariables.vars⟩ := rfl
  have hlt : BinaryOp.lt.value 2 3 = .ok 1 := rfl
  have hmul : BinaryOp.mul.value 2 3 = .ok 6 := by
    have h : (2 : Float) * 3 = 6 := by decide +kernel
    show ArithOp.mul.eval 2 3 = .ok 6
    rw [ArithOp.eval, h]
    rfl
  simp only [productIfLess, eval, Eval.yields_bind]
  refine ⟨1, _, ⟨2, _, hA, 3, _, hB, Eval.yields_ofExcept.mpr ⟨hlt, rfl⟩⟩, ?_⟩
  rw [if_neg (by decide)]
  simp only [Eval.yields_bind]
  exact ⟨6, _, ⟨2, _, hA, 3, _, hB, Eval.yields_ofExcept.mpr ⟨hmul, rfl⟩⟩, (), _, rfl, rfl⟩

theorem evaluate_compile_branch :
    ∃ ref s₁ s₂, parse false (utf8 "IF(A<B:L(T:A*B):T)") = .ok productIfLess ∧
      Session.edit (productIfLess.compile .standard) twoVariables = .ok ref s₁ ∧
      Session.evaluate ref [0] false s₁ = .ok 6 s₂ ∧
      s₂.vars.reals = [(utf8 "A", 2), (utf8 "B", 3), (utf8 "T", 6)] := by
  have hparse : parse false (utf8 "IF(A<B:L(T:A*B):T)") = .ok productIfLess := by rfl
  have hvalid : twoVariables.Valid := ⟨⟨{}, _, rfl, rfl⟩, .new 1024⟩
  obtain ⟨ref, s₁, s₂, hedit, -, hrun, hvars⟩ := evaluate_compile hparse (.inl rfl) (by decide)
    (by decide +kernel) hvalid (by decide) (by decide) (by decide)
    (by simp : [(0 : Float)] ≠ []) productIfLess_yields
  exact ⟨ref, s₁, s₂, hparse, hedit, hrun, by rw [hvars]⟩

end Expr

end Keystroke
