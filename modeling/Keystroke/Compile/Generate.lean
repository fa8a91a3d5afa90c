import Keystroke.Compile.Code

set_option autoImplicit false

/-! # Compiling expressions

An expression becomes code that leaves its value on the stack: operands first, then the command
of the operation. A condition skips a jump to the branch that holds. A sum becomes a subroutine
that counts down in local variables whose names no user variable can have. -/

namespace Keystroke

/-- The names that calls may use: each stands for one command with a number of arguments. -/
structure NameEntry where
  command : Command
  arguments : Int
deriving DecidableEq, Repr

/-- A table of names. -/
abbrev NameTable := List (Bytes × NameEntry)

namespace NameTable

def standard : NameTable := [
  (utf8 "IP", ⟨.integerPart, 1⟩), (utf8 "FP", ⟨.fractionPart, 1⟩), (utf8 "SIGN", ⟨.sign, 1⟩),
  (utf8 "MOD", ⟨.mod, 2⟩), (utf8 "PI", ⟨.pi, 0⟩)]

def command? (t : NameTable) (name : Bytes) (arguments : Nat) : Option Command :=
  match t.lookup name with
  | some entry => if entry.arguments = arguments then some entry.command else none
  | none => none

end NameTable

def BinaryOp.command : BinaryOp → Command
  | add => .add
  | sub => .subtract
  | mul => .multiply
  | div => .divide
  | pow => .yToX
  | equation => .subtract
  | eq => .testEq
  | ne => .testNe
  | lt => .testLt
  | le => .testLe
  | gt => .testGt
  | ge => .testGe
  | and => .testAnd
  | or => .testOr
  | xor => .testXor

def Function.command : Function → Command
  | sin => .sin
  | cos => .cos
  | tan => .tan
  | asin => .asin
  | acos => .acos
  | atan => .atan
  | ln => .ln
  | log => .log
  | exp => .eToX
  | alog => .tenToX
  | sq => .square
  | sqrt => .sqrt
  | inv => .reciprocal
  | abs => .abs

/-- The lines of a sign; a plus does nothing. -/
def UnaryOp.lines : UnaryOp → List CodeLine
  | neg => [.plain (.plain .negate)]
  | pos => []
  | not => [.plain (.plain .testNot)]

/-! ## Sums -/

def stepName : Bytes := utf8 "(s)"

def countName : Bytes := utf8 "(n)"

def totalName : Bytes := utf8 "(a)"

def smallNumber (n : Int) : CodeLine := .plain (.ofNumber (Binary64.ofInt n) [])

def moveToLocal (name : Bytes) : List CodeLine :=
  [.plain (.withName .lsto name), .plain (.plain .drop)]

/-- The start of a sum's subroutine: the index, the step and the count are taken off the stack, and
    the total starts at zero. -/
def sumPrologue (index : Bytes) : List CodeLine :=
  moveToLocal index ++ moveToLocal stepName ++
  [.plain (.withName .rcl index), .plain (.plain .subtract), .plain (.withName .rcl stepName),
    .plain (.plain .divide), smallNumber 1, .plain (.plain .add), .plain (.plain .integerPart)] ++
  moveToLocal countName ++ [smallNumber 0] ++ moveToLocal totalName

/-- The test in front of a term: the sum is done when no terms are left. -/
def sumTest (loop done : Nat) : List CodeLine :=
  [.label loop, .plain (.withName .rcl countName), smallNumber 0, .plain (.plain .testLe),
    .plain (.plain .ifTrue), .jump .gtol done]

/-- What follows a term: it is added, the index goes on by the step and the count goes down. -/
def sumEpilogue (index : Bytes) (loop done : Nat) : List CodeLine :=
  [.plain (.withName .stoAdd totalName), .plain (.plain .drop),
    .plain (.withName .rcl stepName), .plain (.withName .stoAdd index), .plain (.plain .drop),
    smallNumber 1, .plain (.withName .stoSubtract countName), .plain (.plain .drop),
    .jump .gtol loop, .label done, .plain (.withName .rcl totalName)]

/-! ## Expressions -/

namespace Expr

mutual

def generate (names : NameTable) : Expr → Code → Code
  | literal _ value text, c => c.add (.ofNumber value.toBits text)
  | var _ name, c => c.add (.withName .rcl name)
  | fetch _ name, c => c.add (.withName .rcl name)
  | solving _ name, c => c.add (.withName .svar name)
  | group _ e, c => e.generate names c
  | tagged _ _ e, c => e.generate names c
  | unary _ op e, c => (e.generate names c).emitAll op.lines
  | binary _ op l r, c => (r.generate names (l.generate names c)).add (.plain op.command)
  | apply _ fn e, c => (e.generate names c).add (.plain fn.command)
  | extremum _ greatest es, c =>
    (generateAll names es c).add
      (.withNum (if greatest then .greatest else .least) (.ofNat es.length))
  | call _ name es, c =>
    (generateAll names es c).add <|
      match names.command? name es.length with
      | some command => .plain command
      | none => .withName .xeq name
  | conditional _ condition yes no, c =>
    let (c, label) := c.newLabels 2
    let c := (condition.generate names c).emitAll
      [.plain (.plain .ifTrue), .jump .gtol (label + 1 : Nat)]
    let c := (no.generate names c).emitAll [.jump .gtol (label + 2 : Nat), .label (label + 1)]
    (yes.generate names c).emit (.label (label + 2))
  | assign _ name e, c => (e.generate names c).add (.withName .sto name)
  | item _ name e _, c => (e.generate names c).add (.withName .getItem name)
  | sigma _ index first last step body, c =>
    let (c, label) := c.newLabels 3
    let c := first.generate names (step.generate names (last.generate names c))
    let c := (c.emit (.jump .xeql (label + 1 : Nat))).openSubroutine (label + 1 : Nat)
    let c := c.emitAll (sumPrologue index ++ sumTest (label + 2) (label + 3))
    let c := (body.generate names c).emitAll (sumEpilogue index (label + 2) (label + 3))
    c.closeSubroutine?.getD c

def generateAll (names : NameTable) : List Expr → Code → Code
  | [], c => c
  | e :: es, c => generateAll names es (e.generate names c)

end

/-- The code of a whole program for an expression, which takes one number and leaves one. -/
def program (names : NameTable) (e : Expr) : Code :=
  e.generate names (({} : Code).add (.withNum .func 11))

def compileInto (names : NameTable) (e : Expr) (ref : ProgramRef) : Edit Unit :=
  (e.program names).storeInto ref

/-- Compiles an expression into a new equation slot, which is freed when that is refused. -/
def compile (names : NameTable) (e : Expr) : Edit ProgramRef := do
  let ref ← Store.newEquationSlot
  fun s =>
    match e.compileInto names ref s with
    | .ok _ s => .ok ref s
    | .error failure s =>
      if failure.isCrash then .error failure s
      else
        match Store.freeEquation ref s with
        | .ok _ s => .error failure s
        | .error _ s => .error failure s

end Expr

end Keystroke
