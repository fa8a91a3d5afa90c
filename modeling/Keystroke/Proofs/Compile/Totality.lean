import Keystroke.Compile.Equation
import Keystroke.Proofs.Compile.Correctness

set_option autoImplicit false

/-! # Everything that can be read can be compiled

The names in a tree that was read are short enough to be stored and every jump of its code goes to a
label that stands there once. Compiling an equation fails for want of memory only, then, and so does
compiling what it gives for a variable (`Equation.compile_eq_ok_of_parse`). -/

namespace Keystroke

variable {name : Bytes} {compat : Bool}

open Operation

namespace Expr

variable {names : NameTable} {e : Expr}

/-- The number of lines of the program compiled from an expression, without its END. -/
def lineCount (names : NameTable) (e : Expr) : Nat :=
  match (e.program names).resolve with
  | .ok code => code.length
  | .error _ => 0

theorem emittable_callLine (hnames : names = .standard ∨ names = []) (hname : ProperName name)
    (n : Nat) : (callLine names name n).Emittable := by
  rcases hnames with rfl | rfl
  · cases hcommand : NameTable.standard.command? name n with
    | some command => exact (storable_callLine (by rw [hcommand]; rfl)).emittable
    | none =>
      rw [callLine, hcommand]
      exact Instr.emittable_call hname
  · exact Instr.emittable_call hname

/-- A tree with proper names is compiled into a new slot, where memory is there for its program. -/
theorem exists_compile (hnames : names = .standard ∨ names = []) (hp : e.Proper)
    (hlines : e.lineCount names < 2 ^ 31) (hroom : 2 * (e.codeSize names + 2) ≤ Store.maxCapacity)
    {s : Store} (hs : s.Unlimited) :
    ∃ k s', e.compile names s = .ok (.equation k) s' ∧ s'.options = s.options := by
  obtain ⟨code, lineOf, hresolve, -⟩ := e.resolve_program names
  rw [lineCount, hresolve] at hlines
  rw [codeSize, hresolve] at hroom
  have hcode := meets_program (fun i hi => hi.emittable) hp
    (fun c _ hc => emittable_callLine hnames hc c.2) hresolve hlines
  obtain ⟨k, -, -, s', hcompile, -, -, -, -, hoptions⟩ :=
    compile_eq_ok_of_emittable hs hresolve hcode hroom
  exact ⟨k, s', hcompile, hoptions⟩

theorem Fits.untagged_eq {r : Rank} {c : Context} (h : e.Fits compat r c) : e.untagged = e := by
  cases e with
  | tagged => exact h.elim
  | _ => rfl

end Expr

namespace Equation

/-- What is read as an equation: a name that is not too long, a tree, and no program. -/
theorem fits_of_parse {source : Bytes} {e : Equation} (h : parse compat source = .ok e) :
    e.tree.Fits compat .disjunction .top ∧ e.name.length ≤ maxNameLength ∧ e.program = .none := by
  obtain ⟨t, ht, rfl⟩ := exists_of_parse h
  have hfits := Expr.fitsEquation_of_parse ht
  refine ⟨hfits.untagged, ?_, rfl⟩
  cases t with
  | tagged p name t => exact hfits.1.proper.short
  | _ => exact Nat.zero_le _

/-- A compiled equation is solved for a variable where the solution is there or can be compiled. -/
theorem exists_solveFor {f : Equation} {r : Expr} {t : Store} (hprogram : f.program ≠ .none)
    (hr : f.tree.isolate name = .ok r) (hcompile : ∃ ref t', r.compile f.names t = .ok ref t') :
    ∃ ref g t', f.solveFor name t = .ok (ref, g) t' := by
  unfold solveFor
  rw [if_neg hprogram]
  cases hfind : f.solutions.find? name with
  | some ref => exact ⟨ref, f, t, rfl⟩
  | none =>
    obtain ⟨ref, t', hcompile⟩ := hcompile
    rw [hr]
    exact ⟨ref, _, t', bind_ok hcompile⟩

/-- An equation that is read is compiled, with the standard names or none, in every store that could
    be made without a limit, whatever is in it by then; and it is then solved for every variable
    that it can be solved for. The programs have fewer lines than 31 bits count, and memory can hold
    them. -/
theorem compile_eq_ok_of_parse {compat : Bool} {source : Bytes} {e : Equation}
    (h : parse compat source = .ok e) {names : NameTable} (hnames : names = .standard ∨ names = [])
    (hlines : e.tree.lineCount names < 2 ^ 31)
    (hroom : 2 * (e.tree.codeSize names + 2) ≤ Store.maxCapacity)
    {options : Options} {fresh s : Store} (hnew : Store.new options = .ok fresh)
    (hs : s.options = options.normalize) (hmemory : s.options.memoryLimit ≤ 0) :
    ∃ k s', e.compile names s = .ok { e with names := names, program := .equation k } s' ∧
      s'.options = s.options ∧
      ∀ name r, e.tree.isolate name = .ok r → r.lineCount names < 2 ^ 31 →
        2 * (r.codeSize names + 2) ≤ Store.maxCapacity →
        ∀ (solutions : Assoc Bytes ProgramRef) (t : Store), t.options = s.options →
          ∃ ref f t', solveFor name { e with
            names := names, program := .equation k, solutions := solutions } t
              = .ok (ref, f) t' := by
  obtain ⟨hfits, -, hprogram⟩ := fits_of_parse h
  have hunlimited := Store.unlimited_of_new hnew hs hmemory
  obtain ⟨k, s', hcompile, hoptions⟩ := Expr.exists_compile hnames hfits.proper hlines hroom
    hunlimited
  refine ⟨k, s', ?_, hoptions, fun name r hr hlines hroom solutions t ht => ?_⟩
  · rw [compile, if_neg (by simp [hprogram]), bind_ok hcompile]
    rfl
  · have hproper := (Expr.numeric_isolate (hfits.untagged_eq.symm ▸ hfits) hr).fits.proper
    obtain ⟨j, t', hsolution, -⟩ :=
      Expr.exists_compile hnames hproper hlines hroom (hunlimited.of_options ht)
    refine exists_solveFor ?_ hr ⟨_, t', hsolution⟩
    simp

/-- An equation with a call that no name of the table stands for. -/
theorem compile_eq_ok_of_call :
    ∃ e k s' ref f t', parse false (utf8 "SIGMA(I:1:2:1:F(I))-X=0") = .ok e ∧
      e.compile .standard { options := {} }
        = .ok { e with names := .standard, program := .equation k } s' ∧
      solveFor (utf8 "X") { e with names := .standard, program := .equation k } s'
        = .ok (ref, f) t' := by
  obtain ⟨e, h, r, hr, hlines, hroom, hlines', hroom'⟩ :
      ∃ e, parse false (utf8 "SIGMA(I:1:2:1:F(I))-X=0") = .ok e ∧
        ∃ r, e.tree.isolate (utf8 "X") = .ok r ∧ e.tree.lineCount .standard < 2 ^ 31 ∧
          2 * (e.tree.codeSize .standard + 2) ≤ Store.maxCapacity ∧
          r.lineCount .standard < 2 ^ 31 ∧ 2 * (r.codeSize .standard + 2) ≤ Store.maxCapacity :=
    ⟨_, rfl, _, rfl, by decide +kernel, by decide +kernel, by decide +kernel, by decide +kernel⟩
  obtain ⟨k, s', hcompile, hoptions, hsolve⟩ := @compile_eq_ok_of_parse _ _ e h .standard (.inl rfl)
    hlines hroom {} _ { options := {} } rfl rfl (by decide)
  obtain ⟨ref, f, t', hsolved⟩ := hsolve _ r hr hlines' hroom' e.solutions s' hoptions
  exact ⟨e, k, s', ref, f, t', h, hcompile, hsolved⟩

end Equation

end Keystroke
