import Keystroke.Algebra.Parser
import Keystroke.Compile.Generate
import Keystroke.Fingerprint
import Keystroke.Machine.Variables

set_option autoImplicit false

/-! # Equations

An equation is its source with the tree read from it, and the programs compiled from it: one for
the equation itself, and one for each variable it has been solved for. -/

namespace Keystroke

/-- An equation and its programs. -/
structure Equation where
  name : Bytes
  source : Bytes
  compat : Bool
  tree : Expr
  names : NameTable := []
  program : ProgramRef := .none
  solutions : Assoc Bytes ProgramRef := []

namespace Equation

def parse (compat : Bool) (source : Bytes) : Except ParseError Equation := do
  let e ← Expr.parse compat source
  return { name := e.tag, source := source, compat := compat, tree := e.untagged }

/-- An equation that was read is new: it has a name and a tree, and no programs. -/
theorem exists_of_parse {compat : Bool} {source : Bytes} {e : Equation}
    (h : parse compat source = .ok e) : ∃ t, Expr.parse compat source = .ok t ∧
      e = { name := t.tag, source := source, compat := compat, tree := t.untagged } := by
  rw [parse] at h
  cases ht : Expr.parse compat source with
  | error cause =>
    rw [ht] at h
    cases h
  | ok t =>
    rw [ht] at h
    exact ⟨t, rfl, (Except.ok.inj h).symm⟩

def parameters (e : Equation) : List Bytes := e.tree.vars

def print (e : Equation) : Bytes :=
  if e.name.isEmpty then e.tree.print e.compat
  else e.name ++ utf8 ":" ++ e.tree.print e.compat

def form (e : Equation) : Form := .equation e.name e.tree.form

def fingerprint (e : Equation) : Bytes := e.form.fingerprint

/-- Compiles the equation, unless it is compiled already. -/
def compile (names : NameTable) (e : Equation) : Edit Equation := do
  if e.program ≠ .none then return e
  else
    let ref ← e.tree.compile names
    return { e with names := names, program := ref }

/-- Solves a compiled equation for a variable and compiles the solution, unless that has been done
    already. -/
def solveFor (name : Bytes) (e : Equation) : Edit (ProgramRef × Equation) := do
  if e.program = .none then throw (.notCompiled e.source)
  match e.solutions.find? name with
  | some ref => return (ref, e)
  | none =>
    let tree ← Edit.ofExcept ((e.tree.isolate name).mapError .isolation)
    let ref ← tree.compile e.names
    return (ref, { e with solutions := e.solutions.put name ref })

/-- Frees the programs of solutions; those that cannot be freed are kept, with the reasons. -/
def freeSolutions : Assoc Bytes ProgramRef → Store → Assoc Bytes ProgramRef × List Error × Store
  | [], s => ([], [], s)
  | (name, ref) :: rest, s =>
    match Store.freeEquation ref s with
    | .ok _ s => freeSolutions rest s
    | .error e s =>
      let (kept, errors, s) := freeSolutions rest s
      ((name, ref) :: kept, e :: errors, s)

/-- Frees all programs of the equation. What cannot be freed stays with it; the reasons are given
    in the end. -/
def free (e : Equation) (s : Store) : Equation × List Error × Store :=
  if e.program = .none then (e, [], s)
  else
    let (kept, errors, s) := freeSolutions e.solutions s
    let e := { e with solutions := kept }
    match Store.freeEquation e.program s with
    | .ok _ s => ({ e with program := .none }, errors, s)
    | .error failure s => (e, errors ++ [failure], s)

/-- Frees what can be freed of the equations. -/
def freeAll : List Equation → Store → Store
  | [], s => s
  | e :: rest, s => freeAll rest (e.free s).2.2

end Equation

end Keystroke
