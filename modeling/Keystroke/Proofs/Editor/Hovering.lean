import Keystroke.Proofs.Compile.Totality
import Keystroke.Proofs.Editor.Documents
import Keystroke.Proofs.Snapshot.Safety

set_option autoImplicit false

/-! # Hovering over a text

An equation of a document is kept across updates by its fingerprint, with the spelling that it had
when it was compiled, so what the service tells about it may show an earlier spelling. Where the
earlier texts spell it as the last one does, the answer depends on the last text only
(`Service.hover_after_events`). -/

namespace Keystroke.Editor

open Operation List

variable {s0 : Store} {names : NameTable} {uri name : Bytes}

/-- A store without a limit. -/
structure Ample (s0 : Store) : Prop where
  labels : labelTable 0 s0.programs = .ok s0.labels
  word : Store.inWord s0.used = s0.used
  unlimited : s0.Unlimited

/-- Only what a slot cannot hold is refused. -/
theorem Ample.not_emits (h : Ample s0) {e : Expr} (hproper : e.Proper)
    (hsize : ¬ s0.options.Exceeded (s0.compiledSize names e)) (hrefuses : s0.Refuses names e) :
    ¬ e.Emits names := by
  intro hemits
  obtain ⟨s, cause, t, hs, hrun⟩ := hrefuses
  obtain ⟨code, -, hresolve, -⟩ := e.resolve_program names
  rw [Options.Exceeded, Expr.compiledSize_of_proper hproper, Expr.codeLines_of_resolve hresolve,
    show endBytes.length = 2 from rfl] at hsize
  rw [Expr.Emits, Expr.codeLines_of_resolve hresolve] at hemits
  have hlabels : ∀ i ∈ code, i.command = .lbl → i.operand.kind ≠ .text := by
    refine Expr.meets_program_of_num (fun i hi hlbl => absurd hlbl hi.notLbl)
      (fun _ _ _ => by simp [Instr.withNum]) hproper (fun c _ _ => ?_) hresolve
    unfold Expr.callLine
    split <;> simp [Instr.plain, Instr.withName, Command.xeq, Command.lbl]
  have hcode (i : Instr) (hi : i ∈ code) : i.Emittable := by
    have hliteral := Expr.spelled_program hproper hresolve i hi
    obtain ⟨hend, hok⟩ := hemits i hi hliteral.resolved
    cases hbytes : i.encode with
    | ok bytes => exact ⟨⟨hliteral, ⟨bytes, hbytes⟩, hend⟩, hlabels i hi⟩
    | error fault => simp [hbytes, Except.isOk, Except.toBool] at hok
  obtain ⟨k, -, -, t', hcompile, -⟩ := Expr.compile_eq_ok_of_emittable (h.unlimited.of_options hs)
    hresolve hcode (by omega)
  cases hcompile.symm.trans hrun

namespace Service

/-- What is said about the name of an equation or about one of its parameters. -/
def tellName (names : NameTable) (q : Equation) (name : Bytes) : Option Bytes :=
  if name = q.name then some (describeEquation ⟨0, q, q.fingerprint, none⟩)
  else if q.parameters.contains name then
    some (parameterIntro q name ++ if q.tree.Emits names then tellSolution names q name else [])
  else none

/-- What a text says about a place. -/
def tell (names : NameTable) (uri text : Bytes) (compat : Bool) (line column : Nat) :
    Option Bytes :=
  let name := nameAround text line column
  if name.isEmpty then none
  else
    match describeBuiltin? name with
    | some builtin => some builtin
    | none => ((readEquations uri text compat).equations.find? (·.line - 1 = line)).bind
        fun f => tellName names f.equation name

section

variable {start s : Service} {read : Bytes → FileEquation → Prop} {d : Document}
  (h : start.Sound read s) (hlive : start.stopped = false)
  (hs : Ample start.session.store) (hfind : s.documents.find? uri = some d)

include h hlive hs hfind

/-- An equation of a document that is spelled as in the text is described as the text says. -/
theorem describe_eq_tellName {e : DocumentEquation} (he : e ∈ d.equations) {g : FileEquation}
    (hg : g ∈ (readEquations uri d.text start.compat).equations)
    (hprint : e.fingerprint = g.equation.fingerprint)
    (hspelled : ∀ f, read uri f → f.equation.fingerprint = g.equation.fingerprint →
      f.equation = g.equation) :
    (if name = e.equation.name then some (describeEquation e)
      else if e.equation.parameters.contains name then
        some (s.describeParameter uri d e name).1
      else none) = tellName start.names g.equation name := by
  have hsound := (h.split hfind).2.equations e he
  obtain ⟨f, hf, hfprint, names', program, solutions, heq⟩ := hsound.origin
  rw [hspelled f hf (hfprint.trans hprint)] at heq
  obtain ⟨line, equation, fingerprint, failure⟩ := e
  obtain rfl : equation = _ := heq
  obtain rfl : fingerprint = g.equation.fingerprint := hprint
  have hfits := (Equation.fits_of_parse ((readEquationLines_new uri start.compat 1 _).2 g hg).2).1
  have hok : failure = none ↔ g.equation.tree.Emits start.names := by
    refine ⟨fun hok => (hsound.compiled hok).2.2.1, fun hemits => ?_⟩
    by_contra hfailed
    exact hs.not_emits hfits.proper hsound.fits.1 (hsound.failed hfailed).2 hemits
  change (if name = g.equation.name then _ else if g.equation.parameters.contains name then _
    else none) = _
  unfold tellName
  split
  · rfl
  · split
    · next hname =>
      have hname := contains_iff_mem.1 hname
      simp only [← hok]
      refine congrArg some ((h.describeParameter hlive hs.labels hfind he hname).2 ?_)
      intro tree htree
      have hmem : tree ∈ (g.equation.tree.isolate name).toOption := by
        rw [htree]
        rfl
      exact hs.not_emits (Expr.numeric_isolate (hfits.untagged_eq.symm ▸ hfits) htree).fits.proper
        (hsound.fits.2 name hname tree hmem)
    · rfl

/-- Hovering tells what the text says, if no equation of the document has been spelled otherwise. -/
theorem hover_eq_tell (hspelled : ∀ f, read uri f →
      ∀ g ∈ (readEquations uri d.text start.compat).equations,
      f.equation.fingerprint = g.equation.fingerprint → f.equation = g.equation)
    (line column : Nat) :
    (s.hover uri line column).1 = tell start.names uri d.text start.compat line column := by
  unfold hover tell
  rw [hfind]
  dsimp only
  split
  · rfl
  · cases describeBuiltin? (nameAround d.text line column) with
    | some builtin => rfl
    | none =>
      -- The equation on the line stands for that of the text.
      have hstands := congrArg (find? fun k => decide (k.1 = line)) (h.split hfind).2.stands
      rw [find?_map, find?_map] at hstands
      dsimp only [Function.comp_def] at hstands
      cases he : d.equations.find? (·.line = line) with
      | none =>
        rw [he, Option.map_none, eq_comm, Option.map_eq_none_iff] at hstands
        rw [hstands]
        rfl
      | some e =>
        rw [he, eq_comm] at hstands
        obtain ⟨g, hg, hkey⟩ := Option.map_eq_some_iff.1 hstands
        have hmem := mem_of_find?_eq_some hg
        rw [hg, Option.bind_some, ← describe_eq_tellName h hlive hs hfind
          (mem_of_find?_eq_some he) hmem (Prod.mk.inj hkey).2.symm
          fun f hf => hspelled f hf g hmem]
        dsimp only
        split
        · rfl
        · split <;> rfl

end

/-- A session with an empty program and no limit of memory. -/
def roomForAll : Session where
  store := { storeOf endBytes true 0 with options := {} }
  calls := { max := 8 }

end Service

end Keystroke.Editor
