import Keystroke.Algebra.Isolation
import Keystroke.Program.Codec
import Keystroke.Program.Listing
import Keystroke.Program.Ref
import Keystroke.Algebra.ParseError
import Keystroke.Decimal.Reader

set_option autoImplicit false

/-! # Errors

What can go wrong in the store, the machine and the compiler, as causes that carry what a message
needs, and one function that puts them into words. An error that passed through an outer operation
keeps its cause below a note of where it arose. -/

namespace Keystroke

/-- The edits that the store refuses. -/
inductive Restriction where
  | generatedCode
  | endInEquation
  | finalEnd
deriving DecidableEq, Repr

def Restriction.message : Restriction → Bytes
  | generatedCode => utf8 "generated code cannot be edited"
  | endInEquation => utf8 "END in an equation"
  | finalEnd => utf8 "cannot delete the final END"

/-- Why a file cannot be read or written. -/
inductive FileFault where
  | missing (path : Bytes)
  | notDirectory (path : Bytes)
  | isDirectory (path : Bytes)
  | unreadableDirectory (path : Bytes)
  | tooLong (path : Bytes)
  | zeroByte (path : Bytes)
deriving DecidableEq, Repr

def FileFault.message : FileFault → Bytes
  | missing path => utf8 "open " ++ path ++ utf8 ": no such file or directory"
  | notDirectory path => utf8 "open " ++ path ++ utf8 ": not a directory"
  | isDirectory path => utf8 "open " ++ path ++ utf8 ": is a directory"
  | unreadableDirectory path => utf8 "read " ++ path ++ utf8 ": is a directory"
  | tooLong path => utf8 "open " ++ path ++ utf8 ": file name too long"
  | zeroByte path => utf8 "open " ++ path ++ utf8 ": invalid argument"

/-- The errors of the library. -/
inductive Error where
  /-- An access outside of memory. The operation has no result and no message. -/
  | outOfBounds
  | endless
  | unopenedSubroutine
  /-- The call stack does not have a return on top; the number is the kind of what is there. -/
  | corruptCalls (kind : Nat)
  | insufficientMemory
  | restricted (what : Restriction)
  | returnStackFull
  | labelNotFound
  | labelIndexNotFound (index : Int)
  | labelNameNotFound (name : Bytes)
  | programInUse (ref : ProgramRef)
  | invalidInstr (fault : InstrFault)
  | tooFewArguments
  | noVariable (name : Bytes)
  | noMatrix (name : Bytes)
  | invalidProgram (ref : ProgramRef)
  | notEquation (ref : ProgramRef)
  | divideByZero
  | outOfRange
  | pcOutside (pc : Int) (ref : ProgramRef)
  | itemOutside (name : Bytes) (index : Int)
  | invalidData
  | cancelled
  | stepLimit (limit : Int)
  | parse (e : ParseError)
  | isolation (e : IsolationError)
  | undefinedLabel (id : Int)
  | notCompiled (source : Bytes)
  | unreadableSnapshot
  | unsupportedVersion (version : Nat)
  | sessionNotEmpty
  | fingerprintMismatch (source found saved : Bytes)
  | cannotRead (path : Bytes) (fault : FileFault)
  | snapshotFile (fault : FileFault)
  | badManifest (path : Bytes)
  | negativeMemory (path : Bytes)
  | badAssignment (text : Bytes)
  | badValue (name text : Bytes) (cause : Decimal.ReadError)
  | inLine (file : Bytes) (line column : Nat) (cause : Error)
  | atLine (ref : ProgramRef) (line : Nat) (command : Command) (cause : Error)
  | storing (line : Instr) (cause : Error)
  | inEquation (index : Nat) (cause : Error)
  | inProgram (index : Nat) (cause : Error)
  | capturing (ref : ProgramRef) (cause : Error)
  | several (causes : List Error)
deriving Inhabited

namespace Error

def ofInstrFault : InstrFault → Error
  | .unaddressable => .outOfBounds
  | fault => .invalidInstr fault

mutual

def message : Error → Bytes
  | outOfBounds | endless => []
  | unopenedSubroutine => utf8 "compiler: PopSubroutine without PushSubroutine"
  | corruptCalls kind =>
    utf8 "vm: call stack corrupt: slot kind " ++ decimal kind ++ utf8 " on top"
  | insufficientMemory => utf8 "insufficient memory"
  | restricted what => utf8 "restricted operation: " ++ what.message
  | returnStackFull => utf8 "return stack full"
  | labelNotFound => utf8 "label not found"
  | labelIndexNotFound index => utf8 "label not found: label index " ++ decimalInt index
  | labelNameNotFound name => utf8 "label not found: " ++ quoted name
  | programInUse ref => utf8 "program in use: " ++ ref.describe
  | invalidInstr fault => utf8 "invalid instruction: " ++ fault.message
  | tooFewArguments => utf8 "too few arguments"
  | noVariable name => utf8 "nonexistent: variable " ++ quoted name
  | noMatrix name => utf8 "nonexistent: matrix " ++ quoted name
  | invalidProgram ref => utf8 "invalid program reference: " ++ ref.describe
  | notEquation ref =>
    utf8 "invalid program reference: " ++ ref.describe ++ utf8 " is not an equation"
  | divideByZero => utf8 "divide by 0"
  | outOfRange => utf8 "out of range"
  | pcOutside pc ref =>
    utf8 "out of range: pc " ++ decimalInt pc ++ utf8 " outside " ++ ref.describe
  | itemOutside name index =>
    utf8 "out of range: " ++ name ++ utf8 "[" ++ decimalInt index ++ utf8 "]"
  | invalidData => utf8 "invalid data"
  | cancelled => utf8 "interrupted: context canceled"
  | stepLimit limit => utf8 "interrupted: step limit " ++ decimalInt limit ++ utf8 " reached"
  | parse e => e.message
  | isolation e => e.message
  | undefinedLabel id => utf8 "compiler: jump to undefined label " ++ decimalInt id
  | notCompiled source => utf8 "equation " ++ quoted source ++ utf8 " is not compiled"
  | unreadableSnapshot => utf8 "persist: unmarshal snapshot"
  | unsupportedVersion version =>
    utf8 "persist: unsupported snapshot version " ++ decimal version
  | sessionNotEmpty => utf8 "persist: session is not empty"
  | fingerprintMismatch source found saved =>
    utf8 "equation fingerprint mismatch: " ++ quoted source ++ utf8 " is " ++ hex found
      ++ utf8 ", saved " ++ hex saved
  | cannotRead path fault => utf8 "cannot read " ++ path ++ utf8 ": " ++ fault.message
  | snapshotFile fault => utf8 "persist: " ++ fault.message
  | badManifest path => utf8 "parse error in " ++ path
  | negativeMemory path => path ++ utf8 ": memory-limit must not be negative"
  | badAssignment text => utf8 "bad assignment " ++ quoted text ++ utf8 ", want NAME=value"
  | badValue name text cause =>
    utf8 "bad value for " ++ name ++ utf8 ": strconv.ParseFloat: parsing " ++ quoted text
      ++ utf8 ": " ++ cause.message
  | inLine file line column cause =>
    file ++ utf8 ":" ++ decimal line ++ utf8 ":" ++ decimal column ++ utf8 ": " ++ cause.message
  | atLine ref line command cause =>
    ref.describe ++ utf8 " line " ++ twoDigits line ++ 32 :: command.name ++ utf8 ": "
      ++ cause.message
  | storing line cause => utf8 "storing " ++ line.listing ++ utf8 ": " ++ cause.message
  | inEquation index cause =>
    utf8 "persist: equation " ++ decimal index ++ utf8 ": " ++ cause.message
  | inProgram index cause => utf8 "persist: program " ++ decimal index ++ utf8 ": " ++ cause.message
  | capturing ref cause => utf8 "persist: " ++ ref.describe ++ utf8 ": " ++ cause.message
  | several causes => messageAll causes

def messageAll : List Error → Bytes
  | [] => []
  | [e] => e.message
  | e :: es => e.message ++ 10 :: messageAll es

end

end Error

/-- The classes of error that callers tell apart. -/
inductive Cause where
  | badNumber
  | badSyntax
  | isolationFailed
  | unreadableSnapshot
  | version
  | notEmpty
  | fingerprint
  | insufficientMemory
  | restrictedOperation
  | returnStackFull
  | labelNotFound
  | programInUse
  | invalidInstruction
  | stackUnderflow
  | nonexistent
  | invalidProgram
  | divideByZero
  | outOfRange
  | invalidData
  | interrupted
  | missingFile
  | badManifest
  | crash
deriving DecidableEq, Repr

namespace Error

mutual

def causes : Error → List Cause
  | outOfBounds | endless | unopenedSubroutine | corruptCalls _ => [.crash]
  | insufficientMemory => [.insufficientMemory]
  | restricted _ => [.restrictedOperation]
  | returnStackFull => [.returnStackFull]
  | labelNotFound | labelIndexNotFound _ | labelNameNotFound _ => [.labelNotFound]
  | programInUse _ => [.programInUse]
  | invalidInstr _ => [.invalidInstruction]
  | tooFewArguments => [.stackUnderflow]
  | noVariable _ | noMatrix _ => [.nonexistent]
  | invalidProgram _ | notEquation _ => [.invalidProgram]
  | divideByZero => [.divideByZero]
  | outOfRange | pcOutside _ _ | itemOutside _ _ => [.outOfRange]
  | invalidData => [.invalidData]
  | cancelled | stepLimit _ => [.interrupted]
  | parse (.badNumber _) => [.badNumber]
  | parse (.fault _ _) => [.badSyntax]
  | isolation _ => [.isolationFailed]
  | undefinedLabel _ | notCompiled _ | negativeMemory _ | badAssignment _ | badValue _ _ _ => []
  | unreadableSnapshot => [.unreadableSnapshot]
  | unsupportedVersion _ => [.version]
  | sessionNotEmpty => [.notEmpty]
  | fingerprintMismatch _ _ _ => [.fingerprint]
  | cannotRead _ (.missing _) | snapshotFile (.missing _) => [.missingFile]
  | cannotRead _ _ | snapshotFile _ => []
  | badManifest _ => [.badManifest]
  | atLine _ _ _ e | storing _ e | inEquation _ e | inProgram _ e | capturing _ e
  | inLine _ _ _ e => e.causes
  | several es => causesAll es

def causesAll : List Error → List Cause
  | [] => []
  | e :: es => e.causes ++ causesAll es

end

mutual

def offset? : Error → Option Nat
  | parse e => some e.offset
  | atLine _ _ _ e | storing _ e | inEquation _ e | inProgram _ e | capturing _ e
  | inLine _ _ _ e => e.offset?
  | several es => offsetAll? es
  | _ => none

def offsetAll? : List Error → Option Nat
  | [] => none
  | e :: es => e.offset?.or (offsetAll? es)

end

def isCrash (e : Error) : Bool := e.causes.contains .crash

end Error

end Keystroke
