import Keystroke.Proofs.Algebra.Soundness

set_option autoImplicit false

/-! # What the grammar derives

Every equation that the grammar derives is accepted by the parser, with the same tree. A reader
takes exactly the tokens of a derivation when the token behind them cannot continue an expression
of its rank. A chain is followed from the left: the reader comes to the expression read so far
with the rest of the chain still open. -/

namespace Keystroke

open TokenStream Parse

variable {r : Rank} {t : Token} {op : BinaryOp} {ts : List Token} {callee : Bytes}
  {form : SpecialForm}

/-! ## Where an expression ends -/

namespace Rank

/-- How loosely the operators of a rank, and of the ranks in its expressions, bind. -/
def level : Rank → Nat
  | primary | exponent => 0
  | power | factor => 1
  | product => 2
  | sum => 3
  | comparison | negation => 4
  | conjunction => 5
  | disjunction => 6

/-- The token cannot continue an expression of the rank. -/
structure Stops (r : Rank) (t : Token) : Prop where
  noCall : t.kind ≠ .leftParen
  noElement : t.kind ≠ .leftBracket
  noOperator : ∀ q : Rank, q.level ≤ r.level → q.operator? t = none
  noComparison : comparison.level ≤ r.level → comparison? t = none

theorem Stops.mono {q : Rank} (h : r.Stops t) (hq : q.level ≤ r.level) : q.Stops t where
  noCall := h.noCall
  noElement := h.noElement
  noOperator p hp := h.noOperator p (Nat.le_trans hp hq)
  noComparison hc := h.noComparison (Nat.le_trans hc hq)

theorem stops_of_closes (r : Rank) (h : t.kind.closes = true) : r.Stops t where
  noCall hk := by simp [hk, TokenKind.closes] at h
  noElement hk := by simp [hk, TokenKind.closes] at h
  noOperator q _ := by
    cases hop : q.operator? t with
    | none => rfl
    | some op => simpa [h] using closes_of_operator hop
  noComparison _ := by
    cases hop : comparison? t with
    | none => rfl
    | some op => simpa [h] using closes_of_comparison (comparison?_eq_some_iff.1 hop)

section

variable (h : r.operator? t = some op)

include h

theorem token_of_operator :
    match r with
    | disjunction => t.kind = .ident ∧ (t.text = utf8 "OR" ∨ t.text = utf8 "XOR")
    | conjunction => t.kind = .ident ∧ t.text = utf8 "AND"
    | sum => t.kind = .plus ∨ t.kind = .minus
    | product => t.kind = .star ∨ t.kind = .slash
    | power => t.kind = .caret
    | _ => False := by
  unfold operator? at h
  repeat' split at h
  all_goals simp_all

/-- A token is an operator of one rank only. -/
theorem operator?_unique {q : Rank} {op' : BinaryOp}
    (h' : q.operator? t = some op') : r = q := by
  have hr := token_of_operator h
  have hq := token_of_operator h'
  have hwords : utf8 "OR" ≠ utf8 "AND" ∧ utf8 "XOR" ≠ utf8 "AND" := by decide
  cases r <;> cases q <;> grind

theorem comparison?_of_operator : comparison? t = none := by
  have hr := token_of_operator h
  unfold comparison?
  cases r <;> grind

theorem stops_of_operator : r.operand.Stops t := by
  have hlevel : r.operand.level < r.level := by
    have hr := token_of_operator h
    cases r <;> first | exact hr.elim | decide
  have hkind := token_of_operator h
  refine ⟨?_, ?_, fun q hq => ?_, fun _ => comparison?_of_operator h⟩
  · cases r <;> grind
  · cases r <;> grind
  · cases hop : q.operator? t with
    | none => rfl
    | some op' =>
      obtain rfl := operator?_unique h hop
      omega

end

theorem stops_of_comparison (h : comparison? t = some op) : sum.Stops t := by
  refine ⟨fun hk => ?_, fun hk => ?_, fun q _ => ?_, fun hlevel => absurd hlevel (by decide)⟩
  · simp [comparison?, hk] at h
  · simp [comparison?, hk] at h
  · cases hop : q.operator? t with
    | none => rfl
    | some op' => simp [comparison?_of_operator hop] at h

end Rank

/-- The stream goes on with a token that cannot continue an expression of the rank. -/
def Ends (r : Rank) (s : TokenStream) : Prop := ∃ t, peek s = .ok (t, s) ∧ r.Stops t

namespace Ends

variable {q : Rank} {s : TokenStream}

theorem mono (h : Ends r s) (hq : q.level ≤ r.level) : Ends q s := by
  obtain ⟨t, ht, hstops⟩ := h
  exact ⟨t, ht, hstops.mono hq⟩

theorem of_stops (h : r.Stops t) (ts : List Token) : Ends r (prepend (t :: ts) s) := ⟨t, rfl, h⟩

end Ends

/-! ## What an expression starts with -/

/-- The kinds of token that an expression can start with. -/
def TokenKind.starts : TokenKind → Bool
  | number | ident | plus | minus | leftParen => true
  | _ => false

theorem TokenKind.closes_of_starts {k : TokenKind} (h : k.starts = true) : k.closes = false := by
  cases k <;> simp_all [TokenKind.starts, TokenKind.closes]

/-- What the first token of an expression of the rank is like. A comparison or a tighter expression
    starts with no keyword, and a power with no sign. -/
structure Rank.Begins (r : Rank) (t : Token) : Prop where
  starts : t.kind.starts = true
  keyword : r ≠ .disjunction → r ≠ .conjunction → r ≠ .negation → t.keyword? = none
  sign : r = .power ∨ r = .primary → sign? t = none

namespace Rank.Begins

variable {q : Rank}

theorem of_tighter (hq : r.tighter? = some q) (h : q.Begins t) : r.Begins t := by
  obtain ⟨hstarts, hkey, hsign⟩ := h
  refine ⟨hstarts, ?_, ?_⟩ <;> cases r <;> cases hq <;> simp_all

theorem of_sum (h : sum.Begins t) : comparison.Begins t :=
  ⟨h.starts, fun _ _ _ => h.keyword (by decide) (by decide) (by decide), by simp⟩

theorem of_sign {op : UnaryOp} (hr : r.takesSigns = true) (h : (t.kind, op) ∈ signTokens) :
    r.Begins t := by
  unfold signTokens at h
  refine ⟨?_, fun _ _ _ => ?_, fun hpower => ?_⟩
  · cases hk : t.kind <;> simp_all [TokenKind.starts]
  · unfold Token.keyword?
    cases hk : t.kind <;> simp_all
  · rcases hpower with rfl | rfl <;> simp [takesSigns] at hr

theorem of_word (h : t.kind = .ident) : negation.Begins t :=
  ⟨by simp [h, TokenKind.starts], by simp, by simp⟩

theorem of_number (h : t.kind = .number) : r.Begins t :=
  ⟨by simp [h, TokenKind.starts], by simp [Token.keyword?, h], by simp [sign?, h]⟩

theorem of_leftParen (h : t.kind = .leftParen) : r.Begins t :=
  ⟨by simp [h, TokenKind.starts], by simp [Token.keyword?, h], by simp [sign?, h]⟩

theorem of_names (h : t.Names) : r.Begins t := by
  have hk := kind_of_isName h.isName
  have hname := h.isName
  simp only [Token.isName, hk] at hname
  obtain ⟨hkey, hsign⟩ : t.keyword? = none ∧ sign? t = none := by
    simpa [Token.keyword?, sign?, hk] using hname
  exact ⟨by simp [hk, TokenKind.starts], fun _ _ _ => hkey, fun _ => hsign⟩

end Rank.Begins

theorem Token.isName_of_word (h : t.kind = .ident ∧ t.text = utf8 "NOT") : t.isName = false := by
  rw [isName, h.1, h.2]
  decide

/-- An expression does not start like an equation with a name. -/
theorem Derives.first_token : ∀ {r : Rank} {c : Context} {ts : List Token} {e : Expr},
    Derives r c ts e → ∃ t us, ts = t :: us ∧ r.Begins t ∧ Untagged (t :: us)
  | _, _, _, _, .tighter hq h => by
    obtain ⟨t, us, rfl, hfirst, huntagged⟩ := h.first_token
    exact ⟨t, us, rfl, hfirst.of_tighter hq, huntagged⟩
  | _, _, _, _, .chain hop _ _ _ hl _ => by
    obtain ⟨t, us, rfl, hfirst, huntagged⟩ := hl.first_token
    exact ⟨t, _, rfl, hfirst,
      huntagged.append (TokenKind.ne_of_closes rfl (Rank.closes_of_operator hop)) _⟩
  | _, _, _, _, .compare hop _ _ _ hl _ => by
    obtain ⟨t, us, rfl, hfirst, huntagged⟩ := hl.first_token
    exact ⟨t, _, rfl, hfirst.of_sum,
      huntagged.append (TokenKind.ne_of_closes rfl (closes_of_comparison hop)) _⟩
  | _, _, _, _, .sign hr hsign _ _ => by
    refine ⟨_, _, rfl, .of_sign hr hsign, .of_not_name (Token.isName_of_kind fun hk => ?_) _⟩
    simp [signTokens, hk] at hsign
  | _, _, _, _, .negate ht _ _ =>
    ⟨_, _, rfl, .of_word ht.1, .of_not_name (Token.isName_of_word ht) _⟩
  | _, _, _, _, .literal hk _ => ⟨_, _, rfl, .of_number hk, .singleton _⟩
  | _, _, _, _, .group hk _ _ =>
    ⟨_, _, rfl, .of_leftParen hk, .of_not_name (Token.isName_of_kind (by simp [hk])) _⟩
  | _, _, _, _, .var h => ⟨_, _, rfl, .of_names h, .singleton _⟩
  | _, _, _, _, .element h ho _ _ _ => ⟨_, _, rfl, .of_names h, .of_second (by simp [ho]) _⟩
  | _, _, _, _, .apply h _ _ | _, _, _, _, .extremum h _ _ | _, _, _, _, .conditional h _ _
  | _, _, _, _, .fetch h _ _ | _, _, _, _, .solving h _ _ | _, _, _, _, .assign h _ _ _ _
  | _, _, _, _, .item h _ _ _ _ | _, _, _, _, .sigma h _ _ _ _ | _, _, _, _, .call h _ _
  | _, _, _, _, .callEmpty h _ =>
    ⟨_, _, rfl, .of_names h.toNames, .of_second (by simp [h.opens]) _⟩

theorem Arguments.first_token {c : Context} {es : List Expr} (h : Arguments c ts es) :
    ∃ t us, ts = t :: us ∧ t.kind.closes = false := by
  cases h with
  | last _ h | more _ _ h _ =>
    obtain ⟨t, us, rfl, hfirst, -⟩ := h.first_token
    exact ⟨t, _, rfl, TokenKind.closes_of_starts hfirst.starts⟩

theorem Arguments.ne_nil {c : Context} {es : List Expr} (h : Arguments c ts es) : es ≠ [] := by
  cases h <;> simp

/-! ## Ranks -/

section Ranks

variable {depth : Nat} {q : Rank} {c : Context} {us : List Token} {e l : Expr}

/-- The reader of the rank takes exactly these tokens and returns the expression when what follows
    cannot continue it. -/
def Reads (depth : Nat) (r : Rank) (c : Context) (ts : List Token) (e : Expr) : Prop :=
  ∀ rest, Ends r rest → reader depth c r (prepend ts rest) = .ok (e, rest)

/-- The reader of a chain comes behind these tokens with the expression as the operand of what
    may follow. -/
def Follows (depth : Nat) (r : Rank) (c : Context) (ts : List Token) (e : Expr) : Prop :=
  ∀ rest, Ends r.operand rest → ∃ count, rest.tokens.length < count ∧
    ∀ x, links c r (reader depth c r.operand) count e rest = .ok x →
      reader depth c r (prepend ts rest) = .ok x

/-- A chain is followed, an expression of another rank is read at once. -/
def Recognizes (depth : Nat) (r : Rank) (c : Context) (ts : List Token) (e : Expr) : Prop :=
  if r.operand = r then Reads depth r c ts e else Follows depth r c ts e

theorem Recognizes.reads (h : Recognizes depth r c ts e) : Reads depth r c ts e := by
  unfold Recognizes at h
  split at h
  · exact h
  · intro rest hends
    have hlevel : r.operand.level ≤ r.level := by cases r <;> decide
    obtain ⟨count, hcount, hfollows⟩ := h rest (hends.mono hlevel)
    obtain ⟨count, rfl⟩ : ∃ n, count = n + 1 := ⟨count - 1, by omega⟩
    obtain ⟨t, ht, hstops⟩ := hends
    exact hfollows _ (links_ok.2 (.inl ⟨t, ht, hstops.noOperator r (Nat.le_refl _), rfl, rfl⟩))

theorem follows_first (hr : r.operand ≠ r) (hq : r.tighter? = some q)
    (h : Reads depth q c ts e) : Follows depth r c ts e := by
  intro rest hends
  have hlevel : q.level ≤ r.operand.level := by cases r <;> cases hq <;> decide
  refine ⟨rest.tokens.length + 1, Nat.lt_succ_self _, fun x hx => ?_⟩
  rw [reader_chain hr hq]
  simp only [chainOf, bind_ok, remaining_ok]
  exact ⟨e, rest, h rest (hends.mono hlevel), _, rest, ⟨rfl, rfl⟩, hx⟩

theorem follows_chain (hop : r.operator? t = some op)
    (hc : r.joinsConditions = true → c = .condition) (hl : l.isBool = r.joinsConditions)
    (he : e.isBool = r.joinsConditions) (hleft : Follows depth r c ts l)
    (hright : Reads depth r.operand c us e) :
    Follows depth r c (ts ++ t :: us) (.binary t.offset op l e) := by
  intro rest hends
  obtain ⟨count, hcount, hfollows⟩ :=
    hleft (prepend (t :: us) rest) (.of_stops (Rank.stops_of_operator hop) us)
  obtain ⟨count, rfl⟩ : ∃ n, count = n + 1 := ⟨count - 1, by omega⟩
  refine ⟨count, by simp at hcount; omega, fun x hx => ?_⟩
  have hstep := hfollows x (links_ok.2 (.inr ⟨t, op, prepend us rest, e, rest, by simp, hop, hc, hl,
    hright rest hends, he, hx⟩))
  simpa using hstep

theorem signed_ok {operand : Parse Expr} {s : TokenStream} {x : Expr × TokenStream} :
    signed operand s = .ok x ↔ signs operand (s.tokens.length + 1) s = .ok x := by
  simp only [signed, bind_ok, remaining_ok]
  constructor
  · rintro ⟨_, _, ⟨rfl, rfl⟩, h⟩
    exact h
  · intro h
    exact ⟨_, _, ⟨rfl, rfl⟩, h⟩

theorem reader_signed (hr : r.takesSigns = true) (hq : r.tighter? = some q) :
    reader depth c r = signed (reader depth c q) := by
  cases r <;> cases hq <;> first | rfl | simp [Rank.takesSigns] at hr

theorem reads_unsigned (hr : r.takesSigns = true) (hq : r.tighter? = some q)
    (hts : ts = t :: us) (ht : sign? t = none) (h : Reads depth q c ts e) :
    Reads depth r c ts e := by
  intro rest hends
  have hlevel : q.level ≤ r.level := by cases r <;> cases hq <;> decide
  rw [reader_signed hr hq, signed_ok]
  exact signs_ok.2 (.inl ⟨t, by rw [hts]; rfl, ht, h rest (hends.mono hlevel)⟩)

theorem reads_sign {op : UnaryOp} (hr : r.takesSigns = true) (hop : (t.kind, op) ∈ signTokens)
    (he : e.isBool = false) (h : Reads depth r c ts e) :
    Reads depth r c (t :: ts) (.unary t.offset op e) := by
  intro rest hends
  obtain ⟨q, hq⟩ : ∃ q, r.tighter? = some q := by
    cases r <;> first | exact ⟨_, rfl⟩ | simp [Rank.takesSigns] at hr
  have hrest := h rest hends
  rw [reader_signed hr hq, signed_ok] at hrest ⊢
  refine signs_ok.2
    (.inr ⟨t, op, prepend ts rest, e, by simp, sign?_eq_some_iff.2 hop, ?_, he, rfl⟩)
  simpa [Nat.add_assoc, Nat.add_comm, Nat.add_left_comm] using hrest

theorem reads_without_comparison (h : Reads depth .sum c ts e) :
    Reads depth .comparison c ts e := by
  intro rest hends
  have hsum := h rest (hends.mono (by decide))
  obtain ⟨t, ht, hstops⟩ := hends
  exact comparison_ok.2
    ⟨e, rest, hsum, .inl ⟨t, ht, hstops.noComparison (Nat.le_refl _), rfl, rfl⟩⟩

theorem reads_comparison {sense : BinaryOp} (hop : comparison? t = some op)
    (hsense : c.comparison? t op = some sense) (hl : l.isBool = false) (he : e.isBool = false)
    (hleft : Reads depth .sum c ts l) (hright : Reads depth .sum c us e) :
    Reads depth .comparison c (ts ++ t :: us) (.binary t.offset sense l e) := by
  intro rest hends
  have hsum := hleft (prepend (t :: us) rest) (.of_stops (Rank.stops_of_comparison hop) us)
  refine comparison_ok.2 ⟨l, prepend (t :: us) rest, by simpa [reader] using hsum, .inr ?_⟩
  exact ⟨t, op, sense, prepend us rest, e, by simp, hop, hsense, hl,
    hright rest (hends.mono (by decide)), he, rfl⟩

theorem reads_without_negation (hts : ts = t :: us) (ht : t.keyword? = none)
    (h : Reads depth .comparison c ts e) : Reads depth .negation c ts e := by
  intro rest hends
  exact negation_ok.2 (.inl ⟨t, by rw [hts]; rfl, by simp [ht], h rest (hends.mono (by decide))⟩)

theorem reads_negation (ht : t.keyword? = some .not) (he : e.isBool = true)
    (h : Reads depth .comparison .condition ts e) :
    Reads depth .negation .condition (t :: ts) (.unary t.offset .not e) := by
  intro rest hends
  exact negation_ok.2
    (.inr ⟨t, prepend ts rest, e, by simp, ht, rfl, h rest (hends.mono (by decide)), he, rfl⟩)

theorem recognizes_tighter (hq : r.tighter? = some q) (hts : Derives q c ts e)
    (h : Reads depth q c ts e) : Recognizes depth r c ts e := by
  obtain ⟨t, us, hfirst, ⟨-, hkey, hsign⟩, -⟩ := hts.first_token
  cases r with
  | disjunction | conjunction | sum | product | power => exact follows_first (by decide) hq h
  | negation =>
    obtain rfl : Rank.comparison = q := by simpa [Rank.tighter?] using hq
    exact reads_without_negation hfirst (hkey (by decide) (by decide) (by decide)) h
  | comparison =>
    obtain rfl : Rank.sum = q := by simpa [Rank.tighter?] using hq
    exact reads_without_comparison h
  | factor =>
    obtain rfl : Rank.power = q := by simpa [Rank.tighter?] using hq
    exact reads_unsigned rfl hq hfirst (hsign (.inl rfl)) h
  | exponent =>
    obtain rfl : Rank.primary = q := by simpa [Rank.tighter?] using hq
    exact reads_unsigned rfl hq hfirst (hsign (.inr rfl)) h
  | primary => simp [Rank.tighter?] at hq

end Ranks

/-! ## Primaries -/

section Primaries

variable {depth : Nat} {c : Context} {us : List Token} {es : List Expr} {o z n m : Token} {e : Expr}

/-- The readers of arguments and of what stands in parentheses. -/
def inside (depth : Nat) (c : Context) : Parse Expr := reader depth c .disjunction

/-- The reader takes exactly these arguments and the closing parenthesis behind them. -/
def ReadsArguments (depth : Nat) (c : Context) (ts : List Token) (es : List Expr) : Prop :=
  ∀ (callee : Bytes) (arity : Arity) (count : Nat) (done : List Expr) (z : Token)
    (rest : TokenStream), z.kind = .rightParen → ts.length < count →
    arity.least ≤ done.length + es.length →
    (∀ k, arity.most = some k → done.length + es.length ≤ k) →
    moreArguments (inside depth) callee arity count c done (prepend (ts ++ [z]) rest) =
      .ok (done ++ es, rest)

theorem readsArguments_last (he : e.isBool = (c == .condition))
    (h : Reads depth .disjunction c ts e) : ReadsArguments depth c ts [e] := by
  intro callee arity count done z rest hz hcount hleast _
  obtain ⟨count, rfl⟩ : ∃ n, count = n + 1 := ⟨count - 1, by omega⟩
  have hends : Ends .disjunction (prepend [z] rest) :=
    .of_stops (Rank.stops_of_closes _ (by simp [hz, TokenKind.closes])) []
  have hfirst := h _ hends
  exact moreArguments_ok.2 ⟨e, prepend [z] rest, z, rest, by simpa [inside] using hfirst, he, rfl,
    .inr ⟨hz, hleast, rfl, rfl⟩⟩

theorem readsArguments_more (he : e.isBool = (c == .condition))
    (hm : m.kind = .colon) (h : Reads depth .disjunction c ts e)
    (hes : es ≠ []) (hmore : ReadsArguments depth .value us es) :
    ReadsArguments depth c (ts ++ m :: us) (e :: es) := by
  intro callee arity count done z rest hz hcount hleast hmost
  obtain ⟨count, rfl⟩ : ∃ n, count = n + 1 := ⟨count - 1, by omega⟩
  have hends : Ends .disjunction (prepend (m :: (us ++ [z])) rest) :=
    .of_stops (Rank.stops_of_closes _ (by simp [hm, TokenKind.closes])) _
  have hfirst := h _ hends
  have hrest := hmore callee arity count (done ++ [e]) z rest hz
    (by simp at hcount; omega) (by simp at hleast ⊢; omega)
    (fun k hk => by have := hmost k hk; simp at this ⊢; omega)
  have hpos := List.length_pos_iff.2 hes
  refine moreArguments_ok.2 ⟨e, prepend (m :: (us ++ [z])) rest, m, prepend (us ++ [z]) rest,
    by simpa [inside] using hfirst, he, by simp, .inl ⟨hm, fun hk => ?_, by simpa using hrest⟩⟩
  have hlength := hmost _ hk
  simp only [List.length_cons] at hlength
  omega

section

variable (hargs : Arguments c ts es) (h : ReadsArguments depth c ts es) (hz : z.kind = .rightParen)
  (rest : TokenStream)

include hargs h hz

theorem arguments_ok_of_reads {arity : Arity} (hleast : arity.least ≤ es.length)
    (hmost : ∀ k, arity.most = some k → es.length ≤ k) :
    arguments (inside depth) callee arity c (prepend (ts ++ [z]) rest) = .ok (es, rest) := by
  have hcount : ts.length < (prepend (ts ++ [z]) rest).tokens.length + 1 := by
    rw [tokens_prepend, List.length_append, List.length_append]
    omega
  have hmore := h callee arity ((prepend (ts ++ [z]) rest).tokens.length + 1) [] z rest hz
    hcount (by simpa using hleast) (fun k hk => by simpa using hmost k hk)
  obtain ⟨t, us, rfl, ht⟩ := hargs.first_token
  refine bind_ok.2 ⟨t, _, rfl, ?_⟩
  rw [if_neg (TokenKind.ne_of_closes rfl ht)]
  exact bind_ok.2 ⟨_, _, rfl, hmore⟩

theorem arguments_ok_of_exactly {k : Nat} (hk : es.length = k) :
    arguments (inside depth) callee (.exactly k) c (prepend (ts ++ [z]) rest) = .ok (es, rest) :=
  arguments_ok_of_reads hargs h hz rest (Nat.le_of_eq hk.symm)
    fun _ hmost => Nat.le_of_eq (hk.trans (Option.some.inj hmost))

theorem arguments_ok_of_atLeast {k : Nat} (hk : k ≤ 1) :
    arguments (inside depth) callee (.atLeast k) c (prepend (ts ++ [z]) rest) = .ok (es, rest) :=
  arguments_ok_of_reads hargs h hz rest (Nat.le_trans hk (List.length_pos_iff.2 hargs.ne_nil))
    fun _ hmost => by simp [Arity.atLeast] at hmost

end

theorem soleArgument_ok_of_reads (hargs : Arguments .value ts [e])
    (h : ReadsArguments depth .value ts [e]) {offset : Nat} (hz : z.kind = .rightParen)
    (rest : TokenStream) :
    soleArgument (inside depth) callee offset (prepend (ts ++ [z]) rest) = .ok (e, rest) :=
  bind_ok.2 ⟨[e], rest, arguments_ok_of_exactly hargs h hz rest rfl, rfl⟩

theorem reads_call (ht : t.Names) (ho : o.kind = .leftParen)
    (h : ∀ rest, callForm (inside depth) t (prepend ts rest) = .ok (e, rest)) :
    Reads (depth + 1) .primary c (t :: o :: ts) e := by
  intro rest _
  exact primary_ok.2 ⟨t, prepend (o :: ts) rest, by simp, .inr (.inr ⟨ht,
    named_ok.2 (.inl ⟨o, prepend ts rest, by simp, ho, h rest⟩)⟩)⟩

theorem reads_special (form : SpecialForm) (ht : t.Names) (ho : o.kind = .leftParen)
    (hform : t.text = utf8 form.name)
    (h : ∀ rest, specialForm (inside depth) form t (prepend ts rest) = .ok (e, rest)) :
    Reads (depth + 1) .primary c (t :: o :: ts) e := by
  refine reads_call ht ho fun rest => ?_
  have hfn : Function.ofName? t.text = none := by
    rw [hform]
    cases form <;> decide
  unfold callForm
  rw [hfn, SpecialForm.ofName?_eq_some_iff.2 hform]
  exact h rest

theorem reads_arguments (form : SpecialForm) {arity : Arity} {first : Context}
    {build : List Expr → Parse Expr} (h : t.Calls o z) (hform : t.text = utf8 form.name)
    (hspecial : specialForm (inside depth) form t =
      arguments (inside depth) t.text arity first >>= build)
    (hbuild : ∀ rest, build es rest = .ok (e, rest))
    (hes : ∀ rest, arguments (inside depth) t.text arity first (prepend (ts ++ [z]) rest) =
      .ok (es, rest)) : Reads (depth + 1) .primary c (t :: o :: (ts ++ [z])) e := by
  refine reads_special form h.toNames h.opens hform fun rest => ?_
  rw [hspecial]
  exact bind_ok.2 ⟨es, rest, hes rest, hbuild rest⟩

theorem reads_name_arguments (form : SpecialForm) {build : Bytes → Parse Expr} (h : t.Calls o z)
    (hform : t.text = utf8 form.name) (hn : n.Names) (hm : m.kind = .colon)
    (hspecial : specialForm (inside depth) form t = (do let x ← name; expect .colon; build x))
    (hbuild : ∀ rest, build n.text (prepend (ts ++ [z]) rest) = .ok (e, rest)) :
    Reads (depth + 1) .primary c (t :: o :: n :: m :: (ts ++ [z])) e := by
  refine reads_special form h.toNames h.opens hform fun rest => ?_
  rw [hspecial]
  simp only [bind_ok, name_ok, expect_ok (by decide : TokenKind.colon ≠ _)]
  exact ⟨n.text, prepend (m :: (ts ++ [z])) rest, ⟨n, hn, rfl, by simp⟩, (),
    prepend (ts ++ [z]) rest, ⟨m, hm, by simp⟩, hbuild rest⟩

theorem reads_name (form : SpecialForm) {build : Bytes → Expr} (h : t.Calls o z)
    (hform : t.text = utf8 form.name) (hn : n.Names)
    (hspecial : specialForm (inside depth) form t =
      (do let x ← name; expect .rightParen; return build x)) :
    Reads (depth + 1) .primary c [t, o, n, z] (build n.text) := by
  refine reads_special form h.toNames h.opens hform fun rest => ?_
  rw [hspecial]
  simp only [bind_ok, name_ok, expect_ok (by decide : TokenKind.rightParen ≠ _), pure_ok]
  exact ⟨n.text, prepend [z] rest, ⟨n, hn, rfl, by simp⟩, (), rest, ⟨z, h.closes, rfl⟩, rfl, rfl⟩

theorem reads_group (ho : o.kind = .leftParen) (hz : z.kind = .rightParen)
    (h : Reads depth .disjunction c.inner ts e) :
    Reads (depth + 1) .primary c (o :: (ts ++ [z])) (.group o.offset e) := by
  intro rest _
  have hinner := h (prepend [z] rest)
    (.of_stops (Rank.stops_of_closes _ (by simp [hz, TokenKind.closes])) [])
  exact primary_ok.2 ⟨o, prepend (ts ++ [z]) rest, by simp,
    .inr (.inl ⟨z, e, ho, by simpa using hinner, hz, rfl⟩)⟩

theorem reads_element (ht : t.Names) (ho : o.kind = .leftBracket) (hz : z.kind = .rightBracket)
    (he : e.isBool = false) (h : Reads depth .disjunction .value ts e) :
    Reads (depth + 1) .primary c (t :: o :: (ts ++ [z])) (.item t.offset t.text e true) := by
  intro rest _
  have hindex := h (prepend [z] rest)
    (.of_stops (Rank.stops_of_closes _ (by simp [hz, TokenKind.closes])) [])
  exact primary_ok.2 ⟨t, prepend (o :: (ts ++ [z])) rest, by simp, .inr (.inr ⟨ht,
    named_ok.2 (.inr (.inl ⟨o, prepend (ts ++ [z]) rest, z, e, by simp, ho,
      by simpa using hindex, he, hz, rfl⟩))⟩)⟩

end Primaries

mutual

/-- The tokens of a derivation are recognized as what they derive, if the readers go as deep as
    there are tokens. -/
theorem Derives.recognizes : ∀ (depth : Nat) {r : Rank} {c : Context} {ts : List Token} {e : Expr},
    Derives r c ts e → ts.length ≤ depth → Recognizes depth r c ts e
  | _, _, _, _, _, .tighter hq h, hd => recognizes_tighter hq h (h.recognizes _ hd).reads
  | depth, r, _, _, _, .chain hop hc hl he hleft hright, hd => by
    have hchain : r.operand ≠ r := by
      cases r <;> first | decide | simp [Rank.operator?] at hop
    have hfollows := hleft.recognizes depth (by simp at hd; omega)
    have hreads := (hright.recognizes depth (by simp at hd; omega)).reads
    rw [Recognizes, if_neg hchain] at hfollows ⊢
    exact follows_chain hop hc hl he hfollows hreads
  | depth, r, _, _, _, .sign hr hop he h, hd => by
    have hreads := (h.recognizes depth (by simp at hd; omega)).reads
    rw [Recognizes, if_pos (by cases r <;> simp_all [Rank.takesSigns, Rank.operand])]
    exact reads_sign hr hop he hreads
  | _, _, _, _, _, .compare hop hsense hl he hleft hright, hd =>
    reads_comparison (comparison?_eq_some_iff.2 hop) hsense hl he
      (hleft.recognizes _ (by simp at hd; omega)).reads
      (hright.recognizes _ (by simp at hd; omega)).reads
  | _, _, _, _, _, .negate ht he h, hd =>
    reads_negation (Token.keyword?_eq_some_iff.2 ht) he
      (h.recognizes _ (by simp at hd; omega)).reads
  | 0, _, _, _, _, h, hd => by
    obtain ⟨_, _, rfl, -⟩ := h.first_token
    simp at hd
  | depth + 1, _, _, _, _, .literal hk hbits, _ => fun rest _ =>
    primary_ok.2 ⟨_, rest, rfl, .inl ⟨hk, literal_ok.2 ⟨_, hbits, rfl, rfl⟩⟩⟩
  | depth + 1, _, _, _, _, .var ht, _ => fun rest ⟨t, hpeek, hstops⟩ =>
    primary_ok.2 ⟨_, rest, rfl, .inr (.inr ⟨ht,
      named_ok.2 (.inr (.inr ⟨t, hpeek, ⟨hstops.noCall, hstops.noElement⟩, rfl, rfl⟩))⟩)⟩
  | depth + 1, _, _, _, _, .group ho hz h, hd =>
    reads_group ho hz (h.recognizes _ (by simp at hd; omega)).reads
  | depth + 1, _, _, _, _, .element ht ho hz he h, hd =>
    reads_element ht ho hz he (h.recognizes _ (by simp at hd; omega)).reads
  | depth + 1, _, _, _, _, .apply h hfn hargs, hd => by
    have hreads := hargs.reads depth (by simp at hd; omega)
    refine reads_call h.toNames h.opens fun rest => ?_
    unfold callForm
    rw [Function.ofName?_eq_some_iff.2 hfn]
    exact bind_ok.2 ⟨_, rest, soleArgument_ok_of_reads hargs hreads h.closes rest, rfl⟩
  | depth + 1, _, _, _, _, @Derives.extremum _ _ _ _ greatest _ _ h hform hargs, hd => by
    have hreads := hargs.reads depth (by simp at hd; omega)
    cases greatest with
    | false =>
      exact reads_arguments .min h hform rfl (fun _ => rfl)
        fun rest => arguments_ok_of_atLeast hargs hreads h.closes rest (Nat.le_refl 1)
    | true =>
      exact reads_arguments .max h hform rfl (fun _ => rfl)
        fun rest => arguments_ok_of_atLeast hargs hreads h.closes rest (Nat.le_refl 1)
  | depth + 1, _, _, _, _, .conditional h hform hargs, hd => by
    have hreads := hargs.reads depth (by simp at hd; omega)
    exact reads_arguments .choice h hform rfl (fun _ => rfl)
      fun rest => arguments_ok_of_exactly hargs hreads h.closes rest rfl
  | depth + 1, _, _, _, _, .fetch h hform hn, _ => reads_name .fetch h hform hn rfl
  | depth + 1, _, _, _, _, .solving h hform hn, _ => reads_name .solving h hform hn rfl
  | depth + 1, _, _, _, _, .assign h hform hn hm hargs, hd => by
    have hreads := hargs.reads depth (by simp at hd; omega)
    exact reads_name_arguments .assign h hform hn hm rfl fun rest =>
      bind_ok.2 ⟨_, rest, soleArgument_ok_of_reads hargs hreads h.closes rest, rfl⟩
  | depth + 1, _, _, _, _, .item h hform hn hm hargs, hd => by
    have hreads := hargs.reads depth (by simp at hd; omega)
    exact reads_name_arguments .item h hform hn hm rfl fun rest =>
      bind_ok.2 ⟨_, rest, soleArgument_ok_of_reads hargs hreads h.closes rest, rfl⟩
  | depth + 1, _, _, _, _, .sigma h hform hn hm hargs, hd => by
    have hreads := hargs.reads depth (by simp at hd; omega)
    exact reads_name_arguments .sigma h hform hn hm rfl fun rest =>
      bind_ok.2 ⟨_, rest, arguments_ok_of_exactly hargs hreads h.closes rest rfl, rfl⟩
  | depth + 1, _, _, _, _, .call h hfree hargs, hd => by
    have hreads := hargs.reads depth (by simp at hd; omega)
    obtain ⟨hfn, hform⟩ := not_mem_reserved_iff.1 hfree
    refine reads_call h.toNames h.opens fun rest => ?_
    unfold callForm
    rw [hfn, hform]
    exact bind_ok.2
      ⟨_, rest, arguments_ok_of_atLeast hargs hreads h.closes rest (Nat.zero_le 1), rfl⟩
  | depth + 1, _, _, _, _, .callEmpty (z := z) h hfree, _ => by
    obtain ⟨hfn, hform⟩ := not_mem_reserved_iff.1 hfree
    refine reads_call h.toNames h.opens fun rest => ?_
    unfold callForm
    rw [hfn, hform]
    refine bind_ok.2 ⟨[], rest, bind_ok.2 ⟨z, prepend [z] rest, rfl, ?_⟩, rfl⟩
    rw [if_pos h.closes]
    rfl

theorem Arguments.reads : ∀ (depth : Nat) {c : Context} {ts : List Token} {es : List Expr},
    Arguments c ts es → ts.length ≤ depth → ReadsArguments depth c ts es
  | _, _, _, _, .last he h, hd => readsArguments_last he (h.recognizes _ hd).reads
  | _, _, _, _, .more he hm h hmore, hd =>
    readsArguments_more he hm (h.recognizes _ (by simp at hd; omega)).reads hmore.ne_nil
      (hmore.reads _ (by simp at hd; omega))

end

/-! ## Equations -/

/-- At the end of the text, the expression is read whatever its depth. -/
theorem Derives.reads_to_end {e : Expr} (h : Derives .disjunction .top ts e) (n : Nat) :
    reader (ts.length + 1) .top .disjunction ⟨ts, .ok n⟩ = .ok (e, ⟨[], .ok n⟩) := by
  have hends : Ends .disjunction ⟨[], .ok n⟩ :=
    ⟨⟨.endOfText, [], n⟩, rfl, Rank.stops_of_closes _ rfl⟩
  simpa [prepend] using (h.recognizes _ (Nat.le_succ _)).reads _ hends

theorem Parse.equation_complete {e : Expr} (h : DerivesEquation ts e) (n : Nat) :
    equation ⟨ts, .ok n⟩ = .ok (e, ⟨[], .ok n⟩) := by
  cases h with
  | plain h =>
    obtain ⟨t, us, rfl, -, huntagged⟩ := h.first_token
    refine bind_ok.2 ⟨none, _, tag_of_untagged huntagged, bind_ok.2 ⟨_, _, rfl, ?_⟩⟩
    exact bind_ok.2 ⟨e, _, h.reads_to_end n, rfl⟩
  | @tagged t m ts e ht hm h =>
    have htag : tag (prepend [t, m] ⟨ts, .ok n⟩) = .ok (some t, ⟨ts, .ok n⟩) :=
      (tag_prepend_ok ht.isName hm).2 ⟨ht, rfl, rfl⟩
    refine bind_ok.2 ⟨_, _, htag, bind_ok.2 ⟨_, _, rfl, ?_⟩⟩
    exact bind_ok.2 ⟨e, _, h.reads_to_end n, rfl⟩

end Keystroke
