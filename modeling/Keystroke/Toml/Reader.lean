import Keystroke.Toml.Draft
import Keystroke.Toml.Scalar

set_option autoImplicit false

/-! # Reading TOML

A document is a sequence of lines: headers, which say to which table the following keys belong, and
keys with their values. Arrays and inline tables may spread over several lines and may end with a
comma. -/

namespace Keystroke.Toml

/-! ## Characters -/

/-- Drops white space, line ends and comments; with `inComment`, the rest of a comment first. -/
def skipFiller (inComment : Bool) : Bytes → Bytes
  | [] => []
  | b :: rest =>
    if inComment then skipFiller (b ≠ 10) rest
    else if isRemovable b then skipFiller false rest
    else if b = ascii '#' then skipFiller true rest
    else b :: rest

/-- Whether a text has no control characters but tabs and line ends, and every carriage return
    belongs to a line end. -/
def hasPlainControls : Bytes → Bool
  | [] => true
  | 13 :: rest => rest.head? = some 10 && hasPlainControls rest
  | b :: rest => (b = 9 || b = 10 || (32 ≤ b && b ≠ 127)) && hasPlainControls rest

/-- Drops the mark that some editors put in front of a text. -/
def skipByteOrderMark : Bytes → Bytes
  | 0xFF :: 0xFE :: rest => rest
  | 0xFE :: 0xFF :: rest => rest
  | 0xEF :: 0xBB :: 0xBF :: rest => rest
  | text => text

/-! ## Keys -/

def isBareKeyByte (b : UInt8) : Bool :=
  isDigitByte b || (97 ≤ lowerAscii b && lowerAscii b ≤ 122) || b = ascii '_' || b = ascii '-'

def readKeyPart (text : Bytes) : Option (Bytes × Bytes) :=
  match text with
  | [] => none
  | b :: rest =>
    if b = quote then readBasic (rest.length + 1) rest
    else if b = apostrophe then readLiteral rest
    else
      let part := text.takeWhile isBareKeyByte
      if part.isEmpty then none else some (part, text.drop part.length)

/-- Reads the parts of a key with points between them, and the white space around them. The first
    argument bounds the parts. -/
def readKey : Nat → Bytes → Option (List Bytes × Bytes)
  | 0, _ => none
  | bound + 1, text => do
    let (part, rest) ← readKeyPart (skipSpaces text)
    match skipSpaces rest with
    | b :: rest =>
      if b = ascii '.' then do
        let (parts, rest) ← readKey bound rest
        return (part :: parts, rest)
      else return ([part], b :: rest)
    | [] => return ([part], [])

/-! ## Values -/

/-- Reads items with commas between them up to a closing byte. The first argument bounds the
    items. -/
def readItems {α : Type} (close : UInt8) (item : Bytes → Option (α × Bytes)) : Nat → Bytes →
    Option (List α × Bytes)
  | 0, _ => none
  | bound + 1, text =>
    match skipFiller false text with
    | [] => none
    | b :: rest =>
      if b = close then some ([], rest)
      else do
        let (x, rest) ← item (b :: rest)
        match skipFiller false rest with
        | [] => none
        | c :: rest =>
          if c = close then some ([x], rest)
          else if c = ascii ',' then do
            let (xs, rest) ← readItems close item bound rest
            return (x :: xs, rest)
          else none

def readPair (value : Bytes → Option (Term × Bytes)) (text : Bytes) : Option (Pair × Bytes) := do
  let (key, rest) ← readKey (text.length + 1) text
  let rest ← readByte (ascii '=') rest
  let (v, rest) ← value (skipSpaces rest)
  return (.mk key v, rest)

def readValue : Nat → Bytes → Option (Term × Bytes)
  | 0, _ => none
  | depth + 1, text =>
    match text with
    | [] => none
    | b :: rest =>
      if b = ascii '[' then do
        let (items, rest) ← readItems (ascii ']') (readValue depth) (rest.length + 1) rest
        return (.array items, rest)
      else if b = 0x7B then do
        let (pairs, rest) ← readItems 0x7D (readPair (readValue depth)) (rest.length + 1) rest
        return (.inlineTable pairs, rest)
      else (readScalar text).map fun r => (.scalar r.1, r.2)

/-! ## Documents -/

def readLineEnd (text : Bytes) : Option Bytes :=
  match skipSpaces text with
  | [] => some []
  | b :: rest => if isLineEnd b || b = ascii '#' then some (b :: rest) else none

def readHeader (text : Bytes) : Option (Line × Bytes) := do
  let another := text.head? = some (ascii '[')
  let text := if another then text.drop 1 else text
  let (key, rest) ← readKey (text.length + 1) text
  let rest ← readByte (ascii ']') rest
  let rest ← if another then readByte (ascii ']') rest else some rest
  return (.header another key, rest)

def readLine : Bytes → Option (Line × Bytes)
  | [] => none
  | b :: rest =>
    if b = ascii '[' then readHeader rest
    else
      (readPair (readValue (rest.length + 2)) (b :: rest)).map fun r => (.pair r.1, r.2)

/-- Reads the lines of a document. The first argument bounds them. -/
def readLines : Nat → Bytes → Option (List Line)
  | 0, _ => none
  | bound + 1, text =>
    match skipFiller false text with
    | [] => some []
    | b :: rest => do
      let (line, rest) ← readLine (b :: rest)
      let lines ← readLines bound (← readLineEnd rest)
      return line :: lines

def parse (text : Bytes) : Option Table := do
  let text := skipByteOrderMark text
  if !isUtf8 text || !hasPlainControls text then none
  let lines ← readLines (text.length + 1) text
  document? lines

end Keystroke.Toml
