import Keystroke.Compile.Equation
import Keystroke.Text.Blank

set_option autoImplicit false

/-! # Equation files

A file of equations has one on each line; blank lines and lines that start with a number sign are
passed over. Every line is read, whether or not another one fails. -/

namespace Keystroke

/-- An equation of a file. -/
structure FileEquation where
  file : Bytes
  line : Nat
  equation : Equation

/-- A line of a file that is no equation. -/
structure LineFault where
  file : Bytes
  line : Nat
  cause : ParseError

namespace LineFault

def column (f : LineFault) : Nat := f.cause.offset + 1

def error (f : LineFault) : Error := .inLine f.file f.line f.column (.parse f.cause)

end LineFault

def withoutReturn (line : Bytes) : Bytes :=
  if line.getLast? = some 13 then line.dropLast else line

def linesOf (text : Bytes) : List Bytes := (splitOnByte 10 text).map withoutReturn

def isPassedOver (line : Bytes) : Bool :=
  match trimBlank line with
  | [] => true
  | b :: _ => b = ascii '#'

/-- What a text of equations gives. -/
structure EquationLines where
  equations : List FileEquation := []
  faults : List LineFault := []

/-- Reads lines of equations, `n` being the number of the first. -/
def readEquationLines (file : Bytes) (compat : Bool) : Nat → List Bytes → EquationLines
  | _, [] => {}
  | n, line :: rest =>
    let more := readEquationLines file compat (n + 1) rest
    if isPassedOver line then more
    else
      match Equation.parse compat line with
      | .ok e => { more with equations := ⟨file, n, e⟩ :: more.equations }
      | .error e => { more with faults := ⟨file, n, e⟩ :: more.faults }

def readEquations (file text : Bytes) (compat : Bool) : EquationLines :=
  readEquationLines file compat 1 (linesOf text)

end Keystroke
