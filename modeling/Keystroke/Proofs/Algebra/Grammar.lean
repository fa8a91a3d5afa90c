import Keystroke.Algebra.Parser

set_option autoImplicit false

/-! # The grammar of equations

The language of equations as a relation between tokens and trees, apart from the parser. Nine
ranks stand above the primaries. Five of them are chains of operands joined from the left by the
operators of the rank; the others take signs, one comparison or one negation. The context says
where conditions may stand, and the rules keep conditions and numbers apart. -/

namespace Keystroke

variable {t : Token} {op : BinaryOp}

/-! ## Ranks -/

/-- The levels of the grammar, the loosest first. -/
inductive Rank where
  | disjunction
  | conjunction
  | negation
  | comparison
  | sum
  | product
  /-- A power behind signs. -/
  | factor
  | power
  /-- What may stand behind `^`: a primary behind signs. -/
  | exponent
  | primary
deriving DecidableEq, Repr

namespace Rank

/-- The rank whose expressions are expressions of this one too. -/
def tighter? : Rank → Option Rank
  | disjunction => some conjunction
  | conjunction => some negation
  | negation => some comparison
  | comparison => some sum
  | sum => some product
  | product => some factor
  | factor => some power
  | power => some primary
  | exponent => some primary
  | primary => none

/-- The operators that join the operands of a chain, by their tokens and words. -/
def operator? (r : Rank) (t : Token) : Option BinaryOp :=
  match r, t.kind with
  | disjunction, .ident =>
    if t.text = utf8 "OR" then some .or else if t.text = utf8 "XOR" then some .xor else none
  | conjunction, .ident => if t.text = utf8 "AND" then some .and else none
  | sum, .plus => some .add
  | sum, .minus => some .sub
  | product, .star => some .mul
  | product, .slash => some .div
  | power, .caret => some .pow
  | _, _ => none

/-- The rank of what stands behind an operator of a chain. -/
def operand : Rank → Rank
  | disjunction => conjunction
  | conjunction => negation
  | sum => product
  | product => factor
  | power => exponent
  | r => r

/-- Whether the operators of the rank join conditions. -/
def joinsConditions : Rank → Bool
  | disjunction | conjunction => true
  | _ => false

/-- Whether expressions of the rank may start with a sign. -/
def takesSigns : Rank → Bool
  | factor | exponent => true
  | _ => false

end Rank

/-- The signs that may stand in front of a number. -/
def signTokens : List (TokenKind × UnaryOp) := [(.plus, .pos), (.minus, .neg)]

/-- The signs of comparisons. -/
def comparisonTokens : List (TokenKind × BinaryOp) :=
  [(.equal, .eq), (.notEqual, .ne), (.less, .lt), (.lessEqual, .le), (.greater, .gt),
    (.greaterEqual, .ge)]

/-- The names of functions and of special forms, which call no program. -/
def reserved : List Bytes :=
  ["SIN", "COS", "TAN", "ASIN", "ACOS", "ATAN", "LN", "LOG", "EXP", "ALOG", "SQ", "SQRT", "INV",
    "ABS", "MIN", "MAX", "IF", "G", "S", "L", "ITEM", "SIGMA"].map utf8

/-- The operator that a comparison sign stands for: at the top the defining `=`, in a condition the
    comparison, elsewhere nothing. -/
def Context.comparison? (t : Token) (op : BinaryOp) : Context → Option BinaryOp
  | .top => if t.kind = .equal then some .equation else none
  | .value => none
  | .condition => some op

/-! ## Derivations -/

/-- A token that can name something. -/
structure Token.Names (t : Token) : Prop where
  isName : t.isName = true
  short : t.text.length ≤ maxNameLength

/-- A name and the parentheses of its call. -/
structure Token.Calls (t opening closing : Token) : Prop extends t.Names where
  opens : opening.kind = .leftParen
  closes : closing.kind = .rightParen

mutual

/-- In the context, the tokens are an expression of the rank, and this is its tree. -/
inductive Derives : Rank → Context → List Token → Expr → Prop
  | tighter {r q c ts e} : r.tighter? = some q → Derives q c ts e → Derives r c ts e
  | chain {r c t op ts us l e} : r.operator? t = some op →
      (r.joinsConditions = true → c = .condition) →
      l.isBool = r.joinsConditions → e.isBool = r.joinsConditions →
      Derives r c ts l → Derives r.operand c us e →
      Derives r c (ts ++ t :: us) (.binary t.offset op l e)
  | sign {r c t op ts e} : r.takesSigns = true → (t.kind, op) ∈ signTokens → e.isBool = false →
      Derives r c ts e → Derives r c (t :: ts) (.unary t.offset op e)
  | compare {c t op sense ts us l e} : (t.kind, op) ∈ comparisonTokens →
      c.comparison? t op = some sense → l.isBool = false → e.isBool = false →
      Derives .sum c ts l → Derives .sum c us e →
      Derives .comparison c (ts ++ t :: us) (.binary t.offset sense l e)
  | negate {t ts e} : t.kind = .ident ∧ t.text = utf8 "NOT" → e.isBool = true →
      Derives .comparison .condition ts e →
      Derives .negation .condition (t :: ts) (.unary t.offset .not e)
  | literal {c t bits} : t.kind = .number → Decimal.read (Parse.plainNumber t.text) = .ok bits →
      Derives .primary c [t] (.literal t.offset (Float.ofBits bits) t.text)
  | var {c t} : t.Names → Derives .primary c [t] (.var t.offset t.text)
  | group {c o z ts e} : o.kind = .leftParen → z.kind = .rightParen →
      Derives .disjunction c.inner ts e →
      Derives .primary c (o :: (ts ++ [z])) (.group o.offset e)
  | element {c t o z ts e} : t.Names → o.kind = .leftBracket → z.kind = .rightBracket →
      e.isBool = false → Derives .disjunction .value ts e →
      Derives .primary c (t :: o :: (ts ++ [z])) (.item t.offset t.text e true)
  | apply {c t o z fn ts e} : t.Calls o z → t.text = utf8 fn.name →
      Arguments .value ts [e] →
      Derives .primary c (t :: o :: (ts ++ [z])) (.apply t.offset fn e)
  | extremum {c t o z greatest ts es} : t.Calls o z →
      t.text = utf8 (if greatest then "MAX" else "MIN") →
      Arguments .value ts es →
      Derives .primary c (t :: o :: (ts ++ [z])) (.extremum t.offset greatest es)
  | conditional {c t o z ts e y n} : t.Calls o z →
      t.text = utf8 "IF" → Arguments .condition ts [e, y, n] →
      Derives .primary c (t :: o :: (ts ++ [z])) (.conditional t.offset e y n)
  | fetch {c t o z n} : t.Calls o z → t.text = utf8 "G" → n.Names →
      Derives .primary c [t, o, n, z] (.fetch t.offset n.text)
  | solving {c t o z n} : t.Calls o z → t.text = utf8 "S" → n.Names →
      Derives .primary c [t, o, n, z] (.solving t.offset n.text)
  | assign {c t o z n m ts e} : t.Calls o z → t.text = utf8 "L" →
      n.Names → m.kind = .colon → Arguments .value ts [e] →
      Derives .primary c (t :: o :: n :: m :: (ts ++ [z])) (.assign t.offset n.text e)
  | item {c t o z n m ts e} : t.Calls o z → t.text = utf8 "ITEM" →
      n.Names → m.kind = .colon → Arguments .value ts [e] →
      Derives .primary c (t :: o :: n :: m :: (ts ++ [z])) (.item t.offset n.text e false)
  | sigma {c t o z n m ts a b s e} : t.Calls o z → t.text = utf8 "SIGMA" →
      n.Names → m.kind = .colon → Arguments .value ts [a, b, s, e] →
      Derives .primary c (t :: o :: n :: m :: (ts ++ [z])) (.sigma t.offset n.text a b s e)
  | call {c t o z ts es} : t.Calls o z → t.text ∉ reserved → Arguments .value ts es →
      Derives .primary c (t :: o :: (ts ++ [z])) (.call t.offset t.text es)
  | callEmpty {c t o z} : t.Calls o z → t.text ∉ reserved →
      Derives .primary c [t, o, z] (.call t.offset t.text [])

/-- The tokens are arguments with colons between them. The context is that of the first one, and a
    condition stands exactly where the context is one. -/
inductive Arguments : Context → List Token → List Expr → Prop
  | last {c ts e} : e.isBool = (c == .condition) → Derives .disjunction c ts e →
      Arguments c ts [e]
  | more {c m ts us e es} : e.isBool = (c == .condition) → m.kind = .colon →
      Derives .disjunction c ts e → Arguments .value us es →
      Arguments c (ts ++ m :: us) (e :: es)

end

/-- The tokens are an equation, with or without a name in front, and this is its tree. -/
inductive DerivesEquation : List Token → Expr → Prop
  | plain {ts e} : Derives .disjunction .top ts e → DerivesEquation ts e
  | tagged {t m ts e} : t.Names → m.kind = .colon → Derives .disjunction .top ts e →
      DerivesEquation (t :: m :: ts) (.tagged t.offset t.text e)

/-! ## What derivations start with -/

/-- The tokens do not start with a name and a colon. -/
def Untagged (ts : List Token) : Prop :=
  ∀ t m us, ts = t :: m :: us → t.isName = true → m.kind ≠ .colon

namespace Untagged

theorem singleton (t : Token) : Untagged [t] := by
  intro u m us h
  simp at h

theorem of_not_name (h : t.isName = false) (ts : List Token) : Untagged (t :: ts) := by
  intro u m us hts hu
  obtain ⟨rfl, -⟩ := List.cons.inj hts
  simp [h] at hu

theorem of_second {m : Token} (h : m.kind ≠ .colon) (ts : List Token) :
    Untagged (t :: m :: ts) := by
  intro u m' us hts _
  obtain ⟨-, hm⟩ := List.cons.inj hts
  obtain ⟨rfl, -⟩ := List.cons.inj hm
  exact h

theorem append {u : Token} {ts : List Token} (h : Untagged (u :: ts)) (ht : t.kind ≠ .colon)
    (us : List Token) : Untagged (u :: ts ++ t :: us) := by
  cases ts with
  | nil => exact of_second ht us
  | cons m vs =>
    intro u' m' ws hws hu
    obtain ⟨rfl, hm⟩ := List.cons.inj hws
    obtain ⟨rfl, -⟩ := List.cons.inj hm
    exact h u m vs rfl hu

end Untagged

theorem Token.isName_of_kind (h : t.kind ≠ .ident) : t.isName = false := by
  simp [Token.isName, h]

/-- The kinds of token that end every expression. -/
def TokenKind.closes : TokenKind → Bool
  | endOfText | colon | rightParen | rightBracket => true
  | _ => false

theorem TokenKind.ne_of_closes {k l : TokenKind} (hk : k.closes = true) (hl : l.closes = false) :
    l ≠ k := by
  rintro rfl
  simp [hk] at hl

theorem Rank.closes_of_operator {r : Rank} (h : r.operator? t = some op) :
    t.kind.closes = false := by
  unfold operator? at h
  split at h <;> simp_all [TokenKind.closes]

theorem closes_of_comparison (h : (t.kind, op) ∈ comparisonTokens) : t.kind.closes = false := by
  cases hk : t.kind <;> simp_all [comparisonTokens, TokenKind.closes]

/-! ## The tables of the parser -/

theorem Token.keyword?_eq_some_iff {k : Keyword} :
    t.keyword? = some k ↔ t.kind = .ident ∧ t.text = k.text := by
  unfold keyword?
  cases t.kind <;> simp only [reduceCtorEq, false_and, true_and]
  constructor
  · intro h
    unfold Keyword.ofText? at h
    repeat' split at h
    all_goals cases h
    all_goals assumption
  · intro h
    rw [h]
    cases k <;> decide

theorem Rank.operator?_eq (r : Rank) : r.operator? = match r with
    | disjunction => Parse.disjunction?
    | conjunction => Parse.conjunction?
    | sum => Parse.sumOperator?
    | product => Parse.productOperator?
    | power => Parse.powerOperator?
    | _ => fun _ => none := by
  funext t
  have hword {k : Keyword} (hk : t.keyword? = none) (hkind : t.kind = .ident) :
      t.text ≠ k.text := by
    intro htext
    rw [Token.keyword?_eq_some_iff.2 ⟨hkind, htext⟩] at hk
    cases hk
  cases r with
  | disjunction | conjunction =>
    cases hk : t.keyword? with
    | some k =>
      obtain ⟨hkind, htext⟩ := Token.keyword?_eq_some_iff.1 hk
      simp only [operator?, Parse.disjunction?, Parse.conjunction?, hk, hkind, htext]
      cases k <;> decide
    | none =>
      have hor := @hword .or hk
      have hxor := @hword .xor hk
      have hand := @hword .and hk
      simp only [Keyword.text] at hor hxor hand
      cases hkind : t.kind <;>
        simp_all [operator?, Parse.disjunction?, Parse.conjunction?]
  | _ =>
    cases hk : t.kind <;>
      simp [operator?, Parse.sumOperator?, Parse.productOperator?, Parse.powerOperator?, hk]
theorem sign?_eq_some_iff {op : UnaryOp} : Parse.sign? t = some op ↔ (t.kind, op) ∈ signTokens := by
  unfold Parse.sign? signTokens
  cases t.kind <;> simp [eq_comm]

theorem comparison?_eq_some_iff :
    Parse.comparison? t = some op ↔ (t.kind, op) ∈ comparisonTokens := by
  unfold Parse.comparison? comparisonTokens
  cases t.kind <;> simp [eq_comm]

theorem Function.ofName?_eq_some_iff {text : Bytes} {fn : Function} :
    Function.ofName? text = some fn ↔ text = utf8 fn.name := by
  constructor
  · intro h
    have hfound := List.find?_some h
    exact (eq_of_beq hfound).symm
  · rintro rfl
    cases fn <;> decide

theorem Parse.SpecialForm.ofName?_eq_some_iff {text : Bytes} {form : SpecialForm} :
    SpecialForm.ofName? text = some form ↔ text = utf8 form.name := by
  constructor
  · intro h
    have hfound := List.find?_some h
    exact (eq_of_beq hfound).symm
  · rintro rfl
    cases form <;> decide

theorem not_mem_reserved_iff {text : Bytes} : text ∉ reserved ↔
    Function.ofName? text = none ∧ Parse.SpecialForm.ofName? text = none := by
  simp [reserved, Function.ofName?, Function.all, Function.name, Parse.SpecialForm.ofName?,
    Parse.SpecialForm.all, Parse.SpecialForm.name, @eq_comm _ text, and_assoc]

end Keystroke
