import Keystroke.Algebra.Expr
import Keystroke.Algebra.ParseError
import Keystroke.Decimal.Reader

set_option autoImplicit false

/-! # Reading equations

The grammar has nine levels, from the connectives down to the primaries, and three contexts: the
top of an equation, where one `=` defines it; a place for a number; and a condition, where
comparisons and connectives are allowed. The levels are functions of the parser for primaries,
and only the primaries call back to the top level, from inside parentheses and calls; the
recursion is on a bound for their nesting. The other loops run at most once for each token left. -/

namespace Keystroke

/-- What an expression may contain. -/
inductive Context where
  /-- The whole equation: one `=` defines it. -/
  | top
  | value
  | condition
deriving DecidableEq, Repr

namespace Context

def inner : Context → Context
  | top => value
  | context => context

end Context

/-- A reader of tokens. -/
abbrev Parse := StateT TokenStream (Except ParseError)

namespace Parse

/-! ## Tokens -/

/-- The next token, which stays unread. The end of the text is a token as often as it is asked
    for; a malformed number fails when it is reached. -/
def peek : Parse Token := fun s =>
  match s.tokens with
  | t :: _ => .ok (t, s)
  | [] =>
    match s.ending with
    | .ok offset => .ok (⟨.endOfText, [], offset⟩, s)
    | .error bad => .error (.badNumber bad)

def advance : Parse Unit := fun s => .ok ((), { s with tokens := s.tokens.tail })

def next : Parse Token := do
  let t ← peek
  advance
  return t

def remaining : Parse Nat := fun s => .ok (s.tokens.length, s)

def failAt {α : Type} (offset : Nat) (cause : SyntaxFault) : Parse α :=
  throw (.fault offset cause)

def expect (kind : TokenKind) : Parse Unit := do
  let t ← next
  unless t.kind = kind do failAt t.offset (.expectedKind kind t)

def checkLength (t : Token) : Parse Unit := do
  if maxNameLength < t.text.length then failAt t.offset .nameTooLong

def name : Parse Bytes := do
  let t ← next
  unless t.isName do failAt t.offset (.expectedName t)
  checkLength t
  return t.text

def checkNumber (t : Token) (e : Expr) : Parse Unit := do
  if e.isBool then failAt e.offset (.needsNumber t.kind)

def checkCondition (t : Token) (e : Expr) : Parse Unit := do
  unless e.isBool do failAt e.offset (.needsCondition t.text)

/-! ## Operators -/

/-- Operands joined from the left by operators of one level. The checks see the operator and an
    operand; the number bounds the operators to come. -/
def chain (operator? : Token → Option BinaryOp) (checkLeft checkRight : Token → Expr → Parse Unit)
    (operand : Parse Expr) : Nat → Expr → Parse Expr
  | 0, left => return left
  | count + 1, left => do
    let t ← peek
    match operator? t with
    | none => return left
    | some op =>
      advance
      checkLeft t left
      let right ← operand
      checkRight t right
      chain operator? checkLeft checkRight operand count (.binary t.offset op left right)

def chainLeft (operator? : Token → Option BinaryOp)
    (checkLeft checkRight : Token → Expr → Parse Unit) (operand : Parse Expr) : Parse Expr := do
  let left ← operand
  let count ← remaining
  chain operator? checkLeft checkRight operand (count + 1) left

def sumOperator? (t : Token) : Option BinaryOp :=
  match t.kind with
  | .plus => some .add
  | .minus => some .sub
  | _ => none

def productOperator? (t : Token) : Option BinaryOp :=
  match t.kind with
  | .star => some .mul
  | .slash => some .div
  | _ => none

def powerOperator? (t : Token) : Option BinaryOp :=
  match t.kind with
  | .caret => some .pow
  | _ => none

def comparison? (t : Token) : Option BinaryOp :=
  match t.kind with
  | .equal => some .eq
  | .notEqual => some .ne
  | .less => some .lt
  | .lessEqual => some .le
  | .greater => some .gt
  | .greaterEqual => some .ge
  | _ => none

def disjunction? (t : Token) : Option BinaryOp :=
  match t.keyword? with
  | some .or => some .or
  | some .xor => some .xor
  | _ => none

def conjunction? (t : Token) : Option BinaryOp :=
  match t.keyword? with
  | some .and => some .and
  | _ => none

def sign? (t : Token) : Option UnaryOp :=
  match t.kind with
  | .plus => some .pos
  | .minus => some .neg
  | _ => none

/-- An operand behind any number of signs, of which the first argument is a bound. -/
def signs (operand : Parse Expr) : Nat → Parse Expr
  | 0 => operand
  | count + 1 => do
    let t ← peek
    match sign? t with
    | none => operand
    | some op =>
      advance
      let e ← signs operand count
      checkNumber t e
      return .unary t.offset op e

def signed (operand : Parse Expr) : Parse Expr := do
  let count ← remaining
  signs operand (count + 1)

def checkConnective (context : Context) (t : Token) (left : Expr) : Parse Unit := do
  unless context = .condition do failAt t.offset (.outsideCondition t.text)
  checkCondition t left

/-! ## Levels

Each level takes the parser for primaries in the current context. -/

section Levels

variable (primary : Parse Expr)

/-- Powers, from the left; an exponent may have signs of its own. -/
def power : Parse Expr := do
  let left ← primary
  let count ← remaining
  chain powerOperator? checkNumber checkNumber (signed primary) (count + 1) left

def product : Parse Expr :=
  chainLeft productOperator? checkNumber checkNumber (signed (power primary))

def sum : Parse Expr := chainLeft sumOperator? checkNumber checkNumber (product primary)

/-- One comparison at most; at the top of an equation it is the defining `=`. -/
def comparison (context : Context) : Parse Expr := do
  let left ← sum primary
  let t ← peek
  match comparison? t with
  | none => return left
  | some op =>
    advance
    checkNumber t left
    let op ←
      if context = .top && t.kind == .equal then pure BinaryOp.equation
      else if context = .condition then pure op
      else failAt t.offset (.comparisonHere t.kind)
    let right ← sum primary
    checkNumber t right
    return .binary t.offset op left right

def negation (context : Context) : Parse Expr := do
  let t ← peek
  if t.keyword? = some .not then
    advance
    unless context = .condition do failAt t.offset (.outsideCondition t.text)
    let e ← comparison primary context
    checkCondition t e
    return .unary t.offset .not e
  else comparison primary context

def expression (context : Context) : Parse Expr :=
  chainLeft disjunction? (checkConnective context) checkCondition
    (chainLeft conjunction? (checkConnective context) checkCondition (negation primary context))

end Levels

/-! ## Calls

`inside` reads an expression in the given context. -/

section Calls

variable (inside : Context → Parse Expr)

def argument (callee : Bytes) (context : Context) : Parse Expr := do
  let e ← inside context
  match context with
  | .condition => unless e.isBool do failAt e.offset (.conditionArgument callee)
  | _ => if e.isBool then failAt e.offset (.numericArgument callee)
  return e

/-- The arguments after those read already, up to the closing parenthesis; the number bounds
    them. -/
def moreArguments (callee : Bytes) (arity : Arity) : Nat → Context → List Expr → Parse (List Expr)
  | 0, _, done => return done
  | count + 1, context, done => do
    let e ← argument inside callee context
    let done := done ++ [e]
    let t ← next
    match t.kind with
    | .colon =>
      if arity.most = some done.length then failAt t.offset (.wrongArity callee arity)
      else moreArguments callee arity count .value done
    | .rightParen =>
      if done.length < arity.least then failAt t.offset (.wrongArity callee arity)
      else return done
    | _ => failAt t.offset (.expectedSeparator t)

/-- Arguments with colons between them and the closing parenthesis; the first one is read in
    `first`, the others are numbers. -/
def arguments (callee : Bytes) (arity : Arity) (first : Context) : Parse (List Expr) := do
  let t ← peek
  if t.kind = .rightParen then
    advance
    if 0 < arity.least then failAt t.offset (.wrongArity callee arity)
    return []
  else
    let count ← remaining
    moreArguments inside callee arity (count + 1) first []

def soleArgument (callee : Bytes) (offset : Nat) : Parse Expr := do
  match ← arguments inside callee (.exactly 1) .value with
  | [e] => return e
  | _ => failAt offset (.wrongArity callee (.exactly 1))

/-- The names that calls treat in their own way. -/
inductive SpecialForm where
  | min
  | max
  | choice
  | fetch
  | solving
  | assign
  | item
  | sigma
deriving DecidableEq, Repr

def SpecialForm.all : List SpecialForm :=
  [.min, .max, .choice, .fetch, .solving, .assign, .item, .sigma]

def SpecialForm.name : SpecialForm → String
  | .min => "MIN"
  | .max => "MAX"
  | .choice => "IF"
  | .fetch => "G"
  | .solving => "S"
  | .assign => "L"
  | .item => "ITEM"
  | .sigma => "SIGMA"

def SpecialForm.ofName? (text : Bytes) : Option SpecialForm :=
  SpecialForm.all.find? fun f => utf8 f.name == text

def specialForm (form : SpecialForm) (callee : Token) : Parse Expr := do
  let p := callee.offset
  match form with
  | .min => return .extremum p false (← arguments inside callee.text (.atLeast 1) .value)
  | .max => return .extremum p true (← arguments inside callee.text (.atLeast 1) .value)
  | .choice =>
    match ← arguments inside callee.text (.exactly 3) .condition with
    | [c, y, n] => return .conditional p c y n
    | _ => failAt p (.wrongArity callee.text (.exactly 3))
  | .fetch =>
    let n ← name
    expect .rightParen
    return .fetch p n
  | .solving =>
    let n ← name
    expect .rightParen
    return .solving p n
  | .assign =>
    let n ← name
    expect .colon
    return .assign p n (← soleArgument inside callee.text p)
  | .item =>
    let n ← name
    expect .colon
    return .item p n (← soleArgument inside callee.text p) false
  | .sigma =>
    let n ← name
    expect .colon
    match ← arguments inside callee.text (.exactly 4) .value with
    | [a, b, s, e] => return .sigma p n a b s e
    | _ => failAt p (.wrongArity callee.text (.exactly 4))

/-- A call, from behind its opening parenthesis: a function of one number, a special form, or a
    name that is looked up later. -/
def callForm (callee : Token) : Parse Expr := do
  match Function.ofName? callee.text with
  | some fn => return .apply callee.offset fn (← soleArgument inside callee.text callee.offset)
  | none =>
    match SpecialForm.ofName? callee.text with
    | some form => specialForm inside form callee
    | none =>
      return .call callee.offset callee.text (← arguments inside callee.text (.atLeast 0) .value)

end Calls

/-! ## Primaries -/

/-- The text of a number with the point and the exponent mark that the number reader knows. -/
def plainNumber (text : Bytes) : Bytes :=
  text.map fun b => if b = 44 then 46 else if b = 101 || b = exponentByte then 69 else b

/-- A literal, whose value must be finite. -/
def literal (t : Token) : Parse Expr :=
  match Decimal.read (plainNumber t.text) with
  | .ok bits => return .literal t.offset (Float.ofBits bits) t.text
  | .error _ => throw (.badNumber ⟨t.offset, t.text⟩)

/-- What stands behind a name: a call, an element of a matrix, or nothing of the kind. -/
def named (inside : Context → Parse Expr) (t : Token) : Parse Expr := do
  let behind ← peek
  match behind.kind with
  | .leftParen =>
    advance
    callForm inside t
  | .leftBracket =>
    advance
    let index ← inside .value
    checkNumber behind index
    expect .rightBracket
    return .item t.offset t.text index true
  | _ => return .var t.offset t.text

/-- A primary: a literal, a name, a call, an element of a matrix, or an expression in parentheses.
    The number bounds the nesting. -/
def primary : Nat → Context → Parse Expr
  | 0, _ => do failAt (← peek).offset .unexpectedEnd
  | depth + 1, context => do
    let inside (c : Context) : Parse Expr := expression (primary depth c) c
    let t ← next
    match t.kind with
    | .number => literal t
    | .leftParen =>
      let e ← inside context.inner
      expect .rightParen
      return .group t.offset e
    | .ident =>
      if t.isName then
        checkLength t
        named inside t
      else failAt t.offset (.unexpectedWord t.text)
    | .endOfText => failAt t.offset .unexpectedEnd
    | _ => failAt t.offset (.unexpected t)

/-! ## Equations -/

/-- The name in front of an equation, if the text starts with a name and a colon. -/
def tag : Parse (Option Token) := do
  match (← get).tokens with
  | t :: colon :: _ =>
    if t.isName && colon.kind == .colon then
      checkLength t
      advance
      advance
      return some t
    else return none
  | _ => return none

def equation : Parse Expr := do
  let tag? ← tag
  let depth ← remaining
  let e ← expression (primary (depth + 1) .top) .top
  let t ← next
  unless t.kind = .endOfText do failAt t.offset (.trailing t)
  match tag? with
  | some name => return .tagged name.offset name.text e
  | none => return e

end Parse

def Expr.parse (compat : Bool) (text : Bytes) : Except ParseError Expr :=
  (Parse.equation (TokenStream.ofText compat text)).map (·.1)

end Keystroke
