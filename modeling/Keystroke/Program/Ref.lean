import Keystroke.Text.Bytes

set_option autoImplicit false

/-! # References to programs

A program is one of the user's, numbered in the order of memory, or one that was compiled from an
equation, numbered by its slot. Two references stand for the solver and the integrator, which call
programs without being programs themselves. -/

namespace Keystroke

/-- A reference to a program. -/
inductive ProgramRef where
  | none
  | user (index : Int)
  | equation (index : Int)
  | solver
  | integrator
deriving DecidableEq, Repr

namespace ProgramRef

def describe : ProgramRef → Bytes
  | none => utf8 "none"
  | user i => utf8 "prgm " ++ decimalInt i
  | equation i => utf8 "eqn " ++ decimalInt i
  | solver => utf8 "solve"
  | integrator => utf8 "integ"

end ProgramRef

end Keystroke
