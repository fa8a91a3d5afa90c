import Keystroke.Algebra.Printer
import Keystroke.Program.Instr
import Keystroke.Text.Quoted

set_option autoImplicit false

/-! # Lines as a listing shows them -/

namespace Keystroke

def numText (n : Int32) : Bytes :=
  let i := n.toInt
  if 0 ≤ i && i < 100 then twoDigits i.toNat else decimalInt i

def Operand.listing (a : Operand) : Bytes :=
  match a.kind with
  | .none => []
  | .num | .negNum | .labelIndex | .equation => numText a.num
  | .indNum => utf8 "IND " ++ numText a.num
  | .register => utf8 "ST " ++ encodeScalar a.register.toNat
  | .indRegister => utf8 "IND ST " ++ encodeScalar a.register.toNat
  | .text => quoted a.text
  | .indText => utf8 "IND " ++ quoted a.text
  | .letter => encodeScalar a.letter.toNat
  | .real => canonicalNumber a.value
  | .longText => quoted a.text
  | .other c => utf8 "<" ++ (ArgKind.other c).name ++ utf8 ">"

def Instr.listing (i : Instr) : Bytes :=
  if i.command = .number then
    if !i.numberText.isEmpty then i.numberText
    else if i.operand.kind = .real then canonicalNumber i.operand.value
    else decimalInt i.operand.num.toInt
  else if i.command = .string then quoted i.operand.text
  else
    let operand := i.operand.listing
    if operand.isEmpty then i.command.name else i.command.name ++ 32 :: operand

/-- The lines of a listing from the given number on; the last line shows its END between
    points. -/
def listingLines : Nat → List Instr → Bytes
  | _, [] => []
  | n, i :: rest =>
    let text := if i.command = .endLine && rest.isEmpty then utf8 ".END." else i.listing
    10 :: (twoDigits n ++ 32 :: text) ++ listingLines (n + 1) rest

/-- The listing of a program of the given size. Line zero shows the size. -/
def programListing (size : Nat) (lines : List Instr) : Bytes :=
  utf8 "00 \x7b " ++ decimal size ++ utf8 "-Byte Prgm \x7d" ++ listingLines 1 lines

end Keystroke
