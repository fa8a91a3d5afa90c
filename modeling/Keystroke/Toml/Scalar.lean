import Keystroke.Toml.Value

set_option autoImplicit false

/-! # TOML scalars

Strings, numbers and dates. A reader takes the bytes from its first one on and gives the value with
what follows it. -/

namespace Keystroke.Toml

def isSpace (b : UInt8) : Bool := b = 9 || b = 32

def isLineEnd (b : UInt8) : Bool := b = 10 || b = 13

def skipSpaces (text : Bytes) : Bytes := text.dropWhile isSpace

/-! ## Strings -/

def hexNumber? (digits : Bytes) : Option Nat :=
  digits.foldlM (fun n b => (Decimal.digitValue? 16 b).map (n * 16 + ·)) 0

def isScalar (code : Nat) : Bool := code < 0xD800 || (0xE000 ≤ code && code < 0x110000)

/-- The character with the number that the first `count` digits spell. -/
def readCode (count : Nat) (text : Bytes) : Option (Bytes × Bytes) := do
  if text.length < count then none
  let code ← hexNumber? (text.take count)
  if isScalar code then some (encodeScalar code, text.drop count) else none

def readEscape : Bytes → Option (Bytes × Bytes)
  | [] => none
  | b :: rest =>
    match Char.ofNat b.toNat with
    | 'b' => some ([8], rest)
    | 't' => some ([9], rest)
    | 'n' => some ([10], rest)
    | 'f' => some ([12], rest)
    | 'r' => some ([13], rest)
    | 'e' => some ([27], rest)
    | '"' => some ([34], rest)
    | '\\' => some ([92], rest)
    | 'x' => readCode 2 rest
    | 'u' => readCode 4 rest
    | 'U' => readCode 8 rest
    | _ => none

def quote : UInt8 := 34

def apostrophe : UInt8 := 39

/-- Reads a string behind its opening mark. The first argument bounds its characters. -/
def readBasic : Nat → Bytes → Option (Bytes × Bytes)
  | 0, _ => none
  | _, [] => none
  | bound + 1, b :: rest =>
    if b = quote then some ([], rest)
    else if isLineEnd b then none
    else do
      let (piece, rest) ← if b = 92 then readEscape rest else some ([b], rest)
      let (more, rest) ← readBasic bound rest
      return (piece ++ more, rest)

def readLiteral (text : Bytes) : Option (Bytes × Bytes) :=
  let content := text.takeWhile fun b => b ≠ apostrophe && !isLineEnd b
  match text.drop content.length with
  | b :: rest => if b = apostrophe then some (content, rest) else none
  | [] => none

/-- What a run of marks in a string of several lines means: three close it, with up to two more in
    front of them, or with three more behind an escaped backslash; fewer are text. -/
inductive MarkRun where
  | text (count : Nat)
  | closing (before : Nat)
  | tooMany
deriving DecidableEq, Repr

def MarkRun.ofLength (behindBackslash : Bool) (n : Nat) : MarkRun :=
  if n < 3 then .text n
  else if n < 6 || (n = 6 && behindBackslash) then .closing (n - 3)
  else .tooMany

def markCount (mark : UInt8) (text : Bytes) : Nat := (text.takeWhile (· = mark)).length

/-- The white space that a backslash at the end of a line removes. -/
def isRemovable (b : UInt8) : Bool := isSpace b || isLineEnd b

/-- Reads a string of several lines behind its opening marks, with escapes unless it is literal.
    The first number bounds its characters; the truth value behind it says whether the last of them
    was an escaped backslash. -/
def readLong (mark : UInt8) (escapes : Bool) : Nat → Bool → Bytes → Option (Bytes × Bytes)
  | 0, _, _ => none
  | _, _, [] => none
  | bound + 1, behindBackslash, b :: rest =>
    if b = mark then
      let n := markCount mark (b :: rest)
      match MarkRun.ofLength behindBackslash n with
      | .tooMany => none
      | .closing before => some (List.replicate before mark, (b :: rest).drop n)
      | .text count => do
        let (more, rest) ← readLong mark escapes bound false ((b :: rest).drop n)
        return (List.replicate count mark ++ more, rest)
    else if escapes && b = 92 then
      let gap := rest.takeWhile isRemovable
      if gap.isEmpty then do
        let isBackslash := rest.head? = some 92
        let (piece, rest) ← readEscape rest
        let (more, rest) ← readLong mark escapes bound isBackslash rest
        return (piece ++ more, rest)
      else if gap.contains 10 then readLong mark escapes bound false (rest.drop gap.length)
      else none
    else do
      let (more, rest) ← readLong mark escapes bound false rest
      return (b :: more, rest)

/-- Drops the line end directly behind the opening marks. -/
def skipFirstLineEnd : Bytes → Bytes
  | 10 :: rest => rest
  | 13 :: 10 :: rest => rest
  | text => text

def readString (mark : UInt8) (text : Bytes) : Option (Bytes × Bytes) :=
  if 3 ≤ markCount mark text then
    readLong mark (mark = quote) (text.length + 1) false (skipFirstLineEnd (text.drop 3))
  else if mark = quote then readBasic (text.length + 1) (text.drop 1)
  else readLiteral (text.drop 1)

/-! ## Numbers -/

def underscoresBetweenDigits (text : Bytes) : Bool :=
  let step := fun (s : Bool × Bool) (b : UInt8) =>
    (s.1 && (b ≠ ascii '_' || s.2), (Decimal.digitValue? 16 b).isSome)
  let (fine, afterDigit) := text.foldl step (true, false)
  fine && afterDigit

def unsigned : Bytes → Bytes
  | b :: rest => if b = ascii '+' || b = ascii '-' then rest else b :: rest
  | [] => []

/-- Whether a decimal number starts with a zero that it may not start with. -/
def hasLeadingZero (text : Bytes) : Bool :=
  match unsigned text with
  | a :: _ :: _ => a = ascii '0'
  | _ => false

def naturalOf? (base : Nat) (digits : Bytes) : Option Nat :=
  digits.foldlM (fun n b => (Decimal.digitValue? 16 b).bind fun d =>
    if d < base then some (n * base + d) else none) 0

/-- The integer that digits in a base spell; it has to fit 64 bits. -/
def integerOf? (base : Nat) (negative : Bool) (digits : Bytes) : Option Value := do
  let n ← naturalOf? base (digits.filter (· ≠ ascii '_'))
  let n : Int := if negative then -(n : Int) else n
  if -9223372036854775808 ≤ n && n ≤ 9223372036854775807 then some (.integer n) else none

def decimalInteger? (text : Bytes) : Option Value :=
  if !underscoresBetweenDigits text || hasLeadingZero text then none
  else integerOf? 10 (text.head? = some (ascii '-')) (unsigned text)

def pointsBeforeDigits : Bytes → Bool
  | [] => true
  | b :: rest =>
    (b ≠ ascii '.' || (rest.head?.map isDigitByte).getD false) && pointsBeforeDigits rest

/-- The parts of a number: before the point, behind it, and the exponent. -/
def numberParts (text : Bytes) : List Bytes :=
  let cut := fun (b : UInt8) => if b = ascii '.' || b = ascii 'E' then ascii 'e' else b
  (splitOnByte (ascii 'e') (text.map cut)).filter (!·.isEmpty)

def decimalFloat? (text : Bytes) : Option Value :=
  let parts := numberParts text
  if !parts.all underscoresBetweenDigits || (parts.head?.map hasLeadingZero).getD false
      || !pointsBeforeDigits text then none
  else
    match Decimal.read (text.filter (· ≠ ascii '_')) with
    | .ok bits => some (.float bits)
    | .error _ => none

/-! ## Dates -/

/-- Reads a number of exactly `count` digits within bounds. -/
def readDigits (count low high : Nat) (text : Bytes) : Option (Nat × Bytes) := do
  let digits := text.take count
  if digits.length ≠ count || !digits.all isDigitByte then none
  let n ← naturalOf? 10 digits
  if low ≤ n && n ≤ high then some (n, text.drop count) else none

def readByte (b : UInt8) : Bytes → Option Bytes
  | c :: rest => if c = b then some rest else none
  | [] => none

def daysIn (year month : Nat) : Nat :=
  if month = 2 then
    if year % 4 = 0 && (year % 100 ≠ 0 || year % 400 = 0) then 29 else 28
  else if month = 4 || month = 6 || month = 9 || month = 11 then 30
  else 31

def readDate (text : Bytes) : Option Bytes := do
  let (year, rest) ← readDigits 4 0 9999 text
  let (month, rest) ← readDigits 2 1 12 (← readByte (ascii '-') rest)
  let (_, rest) ← readDigits 2 1 (daysIn year month) (← readByte (ascii '-') rest)
  return rest

def readFraction : Bytes → Bytes
  | a :: b :: rest =>
    if a = ascii '.' && isDigitByte b then rest.dropWhile isDigitByte else a :: b :: rest
  | text => text

def readTime (text : Bytes) : Option Bytes := do
  let (_, rest) ← readDigits 2 0 23 text
  let (_, rest) ← readDigits 2 0 59 (← readByte (ascii ':') rest)
  match readByte (ascii ':') rest with
  | none => return rest
  | some rest =>
    let (_, rest) ← readDigits 2 0 59 rest
    return readFraction rest

def readZone : Bytes → Option Bytes
  | [] => none
  | b :: rest =>
    if b = ascii 'Z' then some rest
    else if b = ascii '+' || b = ascii '-' then do
      let (_, rest) ← readDigits 2 0 24 rest
      let (_, rest) ← readDigits 2 0 60 (← readByte (ascii ':') rest)
      return rest
    else none

/-- Whether a text is a date, a time, or both with or without a distance from universal time. -/
def isDatetime (text : Bytes) : Bool :=
  match readDate text with
  | none => readTime text = some []
  | some [] => true
  | some rest =>
    match (readByte (ascii 'T') rest).bind readTime with
    | none => false
    | some [] => true
    | some rest => readZone rest = some []

/-- The spelling of a date with capital letters and a letter between date and time. -/
def canonicalDatetime (text : Bytes) : Bytes :=
  text.map fun b =>
    if b = ascii 'z' then ascii 'Z' else if b = ascii 't' || b = 32 then ascii 'T' else b

def datetime? (text : Bytes) : Option Value :=
  let text := canonicalDatetime (dropEndWhile isSpace text)
  if isDatetime text then some (.datetime text) else none

/-! ## Where a number ends -/

def isFloatByte (b : UInt8) : Bool := isDigitByte b || (utf8 "_.-+eE").contains b

def isDateByte (b : UInt8) : Bool := isDigitByte b || (utf8 "-:Tt .Zz+").contains b

/-- Reads the longest beginning of bytes of a class, by a rule for the whole; `sign` stands in front
    of it. -/
def readSpan (isPart : UInt8 → Bool) (value? : Bytes → Option Value) (sign text : Bytes) :
    Option (Value × Bytes) := do
  let part := text.takeWhile isPart
  return (← value? (sign ++ part), text.drop part.length)

/-- Reads a number of base ten, or a date where there is no sign. The first byte behind the first
    digits decides which. -/
def readDecimal (sign text : Bytes) : Option (Value × Bytes) :=
  let isIntegerByte := fun (b : UInt8) => isDigitByte b || b = ascii '_'
  if ((text.dropWhile isIntegerByte).head?.map (utf8 ".eE").contains).getD false then
    readSpan isFloatByte decimalFloat? sign text
  else if sign.isEmpty && ((text.dropWhile isDigitByte).head?.map (utf8 "-:").contains).getD false
  then readSpan isDateByte datetime? [] text
  else readSpan isIntegerByte decimalInteger? sign text

def baseOf? (b : UInt8) : Option Nat :=
  match Char.ofNat b.toNat with
  | 'b' => some 2
  | 'o' => some 8
  | 'x' => some 16
  | _ => none

def isDigitIn (base : Nat) (b : UInt8) : Bool :=
  match Decimal.digitValue? 16 b with
  | some d => d < base
  | none => false

def basedInteger? (base : Nat) (digits : Bytes) : Option Value :=
  if (digits.head?.map (isDigitIn base)).getD false && underscoresBetweenDigits digits then
    integerOf? base false digits
  else none

def readUnsigned (text : Bytes) : Option (Value × Bytes) :=
  match text with
  | a :: b :: rest =>
    match if a = ascii '0' then baseOf? b else none with
    | some base =>
      readSpan (fun b => isDigitIn base b || b = ascii '_') (basedInteger? base) [] rest
    | none => readDecimal [] text
  | _ => readDecimal [] text

def readNumberWord (sign text : Bytes) : Option (Value × Bytes) :=
  let word := text.take 3
  if word = utf8 "inf" then
    some (.float (Binary64.infinity (sign = [ascii '-'])), text.drop 3)
  else if word = utf8 "nan" then some (.float Binary64.nanBits, text.drop 3)
  else none

def readSigned (sign : UInt8) (text : Bytes) : Option (Value × Bytes) :=
  match text with
  | [] => none
  | b :: rest =>
    if !isDigitByte b then readNumberWord [sign] text
    else if b = ascii '0' && ((rest.head?.bind baseOf?).isSome) then none
    else readDecimal [sign] text

def readBoolean (text : Bytes) : Option (Value × Bytes) :=
  if text.take 4 = utf8 "true" then some (.boolean true, text.drop 4)
  else if text.take 5 = utf8 "false" then some (.boolean false, text.drop 5)
  else none

def readScalar (text : Bytes) : Option (Value × Bytes) :=
  match text with
  | [] => none
  | b :: rest =>
    if b = quote || b = apostrophe then (readString b text).map fun r => (.string r.1, r.2)
    else if isDigitByte b then readUnsigned text
    else if b = ascii '+' || b = ascii '-' then readSigned b rest
    else (readNumberWord [] text).or (readBoolean text)

end Keystroke.Toml
