import Keystroke.Proofs.Algebra.Grammar

set_option autoImplicit false

/-! # What the parser accepts

Every expression that the parser returns is derived by the tokens it has passed over. The levels
are functions of the parser for primaries, so the argument goes level by level under the
assumption that primaries are read soundly, and an induction on the nesting closes it. -/

namespace Keystroke

variable {s s' : TokenStream} {offset count depth : Nat} {cause : SyntaxFault} {t : Token}
  {e : Expr} {u : Unit} {p : Prop} {c : Context} {r q : Rank} {operand : Parse Expr}
  {x : Expr × TokenStream} {es : List Expr}

namespace TokenStream

/-- The stream with more tokens in front. -/
def prepend (ts : List Token) (s : TokenStream) : TokenStream := { s with tokens := ts ++ s.tokens }

@[simp] theorem prepend_nil (s : TokenStream) : s.prepend [] = s := rfl

@[simp] theorem prepend_prepend (ts us : List Token) (s : TokenStream) :
    (s.prepend us).prepend ts = s.prepend (ts ++ us) := by
  simp [prepend]

@[simp] theorem tokens_prepend (ts : List Token) (s : TokenStream) :
    (s.prepend ts).tokens = ts ++ s.tokens := rfl

@[simp] theorem ending_prepend (ts : List Token) (s : TokenStream) :
    (s.prepend ts).ending = s.ending := rfl

end TokenStream

namespace Parse

open TokenStream

variable {α β : Type}

/-! ## Steps of a reader -/

theorem bind_ok {p : Parse α} {f : α → Parse β} {x : β × TokenStream} :
    (p >>= f) s = .ok x ↔ ∃ a s', p s = .ok (a, s') ∧ f a s' = .ok x := by
  show StateT.bind p f s = _ ↔ _
  unfold StateT.bind
  cases h : p s with
  | error e => simp [bind, Except.bind]
  | ok y => simp [bind, Except.bind, Prod.ext_iff, and_assoc]

theorem pure_ok {a b : α} : (pure a : Parse α) s = .ok (b, s') ↔ b = a ∧ s' = s := by
  show Except.ok (a, s) = _ ↔ _
  simp [eq_comm]

theorem failAt_ok {x : α × TokenStream} : (failAt offset cause : Parse α) s = .ok x ↔ False := by
  show Except.error _ = _ ↔ _
  simp

theorem remaining_ok {n : Nat} : remaining s = .ok (n, s') ↔ n = s.tokens.length ∧ s' = s := by
  simp [remaining, eq_comm]

theorem peek_ok :
    peek s = .ok (t, s') ↔ s' = s ∧
      ((∃ u, s = prepend [t] u) ∨ ∃ n, s = ⟨[], .ok n⟩ ∧ t = ⟨.endOfText, [], n⟩) := by
  obtain ⟨tokens, ending⟩ := s
  unfold peek
  cases tokens with
  | cons u us =>
    simp only [Except.ok.injEq, Prod.mk.injEq]
    constructor
    · rintro ⟨rfl, rfl⟩
      exact ⟨rfl, .inl ⟨⟨us, ending⟩, rfl⟩⟩
    · rintro ⟨rfl, ⟨v, hv⟩ | ⟨n, hn, -⟩⟩
      · simp [prepend] at hv
        exact ⟨hv.1.1, rfl⟩
      · simp at hn
  | nil =>
    cases ending with
    | error bad => simp [prepend]
    | ok n => simp [prepend, eq_comm, and_comm]

theorem advance_ok : advance (prepend [t] s) = .ok ((), s') ↔ s' = s := by
  show Except.ok ((), s) = _ ↔ _
  simp [eq_comm]

/-- A choice by the next token, which is read unless there is nothing to choose. -/
theorem fork_ok {f : Token → Parse α} {no : Parse α} {yes : Token → β → Parse α}
    (choose : Token → Option β) (hend : ∀ n, choose ⟨.endOfText, [], n⟩ = none)
    (hno : ∀ t, choose t = none → f t = no)
    (hyes : ∀ t b, choose t = some b → f t = advance >>= fun _ => yes t b) {x : α × TokenStream} :
    (peek >>= f) s = .ok x ↔
      (∃ t, peek s = .ok (t, s) ∧ choose t = none ∧ no s = .ok x) ∨
      ∃ t b u, s = prepend [t] u ∧ choose t = some b ∧ yes t b u = .ok x := by
  rw [bind_ok]
  constructor
  · rintro ⟨t, _, ht, h⟩
    obtain ⟨rfl, hfront⟩ := peek_ok.1 ht
    cases hb : choose t with
    | none => exact .inl ⟨t, ht, hb, hno t hb ▸ h⟩
    | some b =>
      rw [hyes t b hb, bind_ok] at h
      obtain ⟨_, u, hu, h⟩ := h
      rcases hfront with ⟨v, rfl⟩ | ⟨n, -, rfl⟩
      · obtain rfl := advance_ok.1 hu
        exact .inr ⟨t, b, _, rfl, hb, h⟩
      · simp [hend] at hb
  · rintro (⟨t, ht, hb, h⟩ | ⟨t, b, u, rfl, hb, h⟩)
    · exact ⟨t, s, ht, hno t hb ▸ h⟩
    · refine ⟨t, _, peek_ok.2 ⟨rfl, .inl ⟨u, rfl⟩⟩, ?_⟩
      rw [hyes t b hb, bind_ok]
      exact ⟨(), u, advance_ok.2 rfl, h⟩

/-- Reading a token that is not the end of the text. -/
theorem next_ok (ht : t.kind ≠ .endOfText) : next s = .ok (t, s') ↔ s = prepend [t] s' := by
  unfold next
  simp only [bind_ok, peek_ok, pure_ok]
  constructor
  · rintro ⟨_, _, ⟨rfl, h⟩, _, _, h', rfl, rfl⟩
    rcases h with ⟨u, rfl⟩ | ⟨n, -, rfl⟩
    · rw [advance_ok.1 h']
    · exact absurd rfl ht
  · rintro rfl
    exact ⟨t, _, ⟨rfl, .inl ⟨s', rfl⟩⟩, (), s', advance_ok.2 rfl, rfl, rfl⟩

theorem checkNumber_ok : checkNumber t e s = .ok (u, s') ↔ e.isBool = false ∧ s' = s := by
  unfold checkNumber
  split <;> simp_all [failAt_ok, pure_ok]

theorem checkCondition_ok : checkCondition t e s = .ok (u, s') ↔ e.isBool = true ∧ s' = s := by
  unfold checkCondition
  split <;> simp_all [failAt_ok, pure_ok]

theorem checkLength_ok :
    checkLength t s = .ok (u, s') ↔ t.text.length ≤ maxNameLength ∧ s' = s := by
  unfold checkLength
  split
  · simp [failAt_ok, Nat.not_le.2 ‹_›]
  · simp [pure_ok, Nat.not_lt.1 ‹_›]

/-- A check with the computation behind it, which is repeated in neither branch. -/
theorem require_ok [Decidable p] {k : Parse α} {f : β → Parse α} {x : α × TokenStream} :
    (if p then k else failAt offset cause >>= f) s = .ok x ↔ p ∧ k s = .ok x := by
  split <;> simp_all [bind_ok, failAt_ok]

theorem refuse_ok [Decidable p] {k : Parse α} {f : β → Parse α} {x : α × TokenStream} :
    (if p then failAt offset cause >>= f else k) s = .ok x ↔ ¬ p ∧ k s = .ok x := by
  split <;> simp_all [bind_ok, failAt_ok]

theorem unless_ok [Decidable p] :
    (unless p do failAt offset cause : Parse Unit) s = .ok (u, s') ↔ p ∧ s' = s := by
  split <;> simp_all [failAt_ok, pure_ok]

theorem checkConnective_ok :
    checkConnective c t e s = .ok (u, s') ↔ c = .condition ∧ e.isBool = true ∧ s' = s := by
  unfold checkConnective
  rw [require_ok, checkCondition_ok]

theorem expect_ok {k : TokenKind} (hk : k ≠ .endOfText) :
    expect k s = .ok (u, s') ↔ ∃ t, t.kind = k ∧ s = prepend [t] s' := by
  unfold expect
  simp only [bind_ok, unless_ok]
  constructor
  · rintro ⟨t, _, h, rfl, rfl⟩
    exact ⟨t, rfl, (next_ok hk).1 h⟩
  · rintro ⟨t, rfl, h⟩
    exact ⟨t, s', (next_ok hk).2 h, rfl, rfl⟩

theorem kind_of_isName (h : t.isName = true) : t.kind = .ident := by
  simp [Token.isName] at h
  exact h.1

theorem name_ok {n : Bytes} :
    name s = .ok (n, s') ↔ ∃ t : Token, t.Names ∧ n = t.text ∧ s = prepend [t] s' := by
  unfold name
  simp only [bind_ok, require_ok, checkLength_ok, pure_ok]
  constructor
  · rintro ⟨t, _, h, hn, _, _, ⟨hl, rfl⟩, rfl, rfl⟩
    exact ⟨t, ⟨hn, hl⟩, rfl, (next_ok (by simp [kind_of_isName hn])).1 h⟩
  · rintro ⟨t, ht, rfl, h⟩
    exact ⟨t, s', (next_ok (by simp [kind_of_isName ht.isName])).2 h, ht.isName,
      (), s', ⟨ht.short, rfl⟩, rfl, rfl⟩

/-! ## Chains and signs -/

/-- What the reader returns is derived by the tokens it passes over. -/
def Sound (p : Parse Expr) (derives : List Token → Expr → Prop) : Prop :=
  ∀ s e s', p s = .ok (e, s') → ∃ ts, s = prepend ts s' ∧ derives ts e

/-- The check on the operand in front of an operator of a chain. -/
def leftCheck (c : Context) : Rank → Token → Expr → Parse Unit
  | .disjunction | .conjunction => checkConnective c
  | _ => checkNumber

/-- The check on the operand behind an operator of a chain. -/
def rightCheck : Rank → Token → Expr → Parse Unit
  | .disjunction | .conjunction => checkCondition
  | _ => checkNumber

theorem leftCheck_ok :
    leftCheck c r t e s = .ok (u, s') ↔
      (r.joinsConditions = true → c = .condition) ∧ e.isBool = r.joinsConditions ∧ s' = s := by
  cases r <;> simp [leftCheck, checkConnective_ok, checkNumber_ok, Rank.joinsConditions]

theorem rightCheck_ok :
    rightCheck r t e s = .ok (u, s') ↔ e.isBool = r.joinsConditions ∧ s' = s := by
  cases r <;> simp [rightCheck, checkCondition_ok, checkNumber_ok, Rank.joinsConditions]

/-- The chain of a rank, from behind its first operand. -/
def links (c : Context) (r : Rank) (operand : Parse Expr) : Nat → Expr → Parse Expr :=
  chain r.operator? (leftCheck c r) (rightCheck r) operand

/-- A chain goes on exactly with an operator of its rank and an operand. -/
theorem links_ok {l : Expr} :
    links c r operand (count + 1) l s = .ok (e, s') ↔
      (∃ t, peek s = .ok (t, s) ∧ r.operator? t = none ∧ e = l ∧ s' = s) ∨
      ∃ t op u e' u', s = prepend [t] u ∧ r.operator? t = some op ∧
        (r.joinsConditions = true → c = .condition) ∧ l.isBool = r.joinsConditions ∧
        operand u = .ok (e', u') ∧ e'.isBool = r.joinsConditions ∧
        links c r operand count (.binary t.offset op l e') u' = .ok (e, s') := by
  have hend (n : Nat) : r.operator? ⟨.endOfText, [], n⟩ = none := by cases r <;> rfl
  refine (fork_ok r.operator? hend (fun t h => by rw [h]) fun t op h => by rw [h]).trans ?_
  simp [bind_ok, leftCheck_ok, rightCheck_ok, pure_ok, and_assoc, links]

theorem links_sound (hoperand : Sound operand (Derives r.operand c)) (count : Nat) {l : Expr}
    {ts : List Token} (hl : Derives r c ts l) (h : links c r operand count l s = .ok (e, s')) :
    ∃ us, s = prepend us s' ∧ Derives r c (ts ++ us) e := by
  -- the expression read so far is the left operand of the next operator
  induction count generalizing l ts s with
  | zero =>
    obtain ⟨rfl, rfl⟩ := pure_ok.1 h
    exact ⟨[], rfl, by simpa using hl⟩
  | succ count ih =>
    rcases links_ok.1 h with
      ⟨t, -, -, rfl, rfl⟩ | ⟨t, op, u, e', u', rfl, hop, hc, hb, he', hb', hmore⟩
    · exact ⟨[], rfl, by simpa using hl⟩
    · obtain ⟨us, rfl, hus⟩ := hoperand _ _ _ he'
      obtain ⟨vs, rfl, hvs⟩ := ih (.chain hop hc hb hb' hl hus) hmore
      exact ⟨t :: us ++ vs, by simp, by simpa using hvs⟩

/-- A first operand of the tighter rank and the chain behind it. -/
def chainOf (c : Context) (r : Rank) (first operand : Parse Expr) : Parse Expr := do
  let left ← first
  let count ← remaining
  links c r operand (count + 1) left

theorem chainOf_sound {first : Parse Expr} (hq : r.tighter? = some q)
    (hfirst : Sound first (Derives q c)) (hoperand : Sound operand (Derives r.operand c)) :
    Sound (chainOf c r first operand) (Derives r c) := by
  intro s e s' h
  simp only [chainOf, bind_ok, remaining_ok] at h
  obtain ⟨l, u, hl, _, _, ⟨rfl, rfl⟩, h⟩ := h
  obtain ⟨ts, rfl, hts⟩ := hfirst _ _ _ hl
  obtain ⟨us, rfl, hus⟩ := links_sound hoperand _ (.tighter hq hts) h
  exact ⟨ts ++ us, by simp, hus⟩

theorem signs_ok :
    signs operand (count + 1) s = .ok (e, s') ↔
      (∃ t, peek s = .ok (t, s) ∧ sign? t = none ∧ operand s = .ok (e, s')) ∨
      ∃ t op u e', s = prepend [t] u ∧ sign? t = some op ∧
        signs operand count u = .ok (e', s') ∧ e'.isBool = false ∧ e = .unary t.offset op e' := by
  refine (fork_ok sign? (fun _ => rfl) (fun t h => by rw [h]) fun t op h => by rw [h]).trans ?_
  simp only [bind_ok, checkNumber_ok, pure_ok]
  refine or_congr_right ⟨?_, ?_⟩
  · rintro ⟨t, op, u, hs, hop, e', _, he', _, _, ⟨hb, rfl⟩, rfl, rfl⟩
    exact ⟨t, op, u, e', hs, hop, he', hb, rfl⟩
  · rintro ⟨t, op, u, e', hs, hop, he', hb, rfl⟩
    exact ⟨t, op, u, hs, hop, e', s', he', (), s', ⟨hb, rfl⟩, rfl, rfl⟩

theorem signed_sound (hr : r.takesSigns = true) (hq : r.tighter? = some q)
    (hoperand : Sound operand (Derives q c)) : Sound (signed operand) (Derives r c) := by
  have hsigns (count : Nat) : Sound (signs operand count) (Derives r c) := by
    induction count with
    | zero =>
      intro s e s' h
      obtain ⟨ts, rfl, hts⟩ := hoperand s e s' h
      exact ⟨ts, rfl, .tighter hq hts⟩
    | succ count ih =>
      intro s e s' h
      rcases signs_ok.1 h with ⟨t, -, -, h⟩ | ⟨t, op, u, e', rfl, hop, he', hb, rfl⟩
      · obtain ⟨ts, rfl, hts⟩ := hoperand s e s' h
        exact ⟨ts, rfl, .tighter hq hts⟩
      · obtain ⟨ts, rfl, hts⟩ := ih _ _ _ he'
        exact ⟨t :: ts, by simp, .sign hr (sign?_eq_some_iff.1 hop) hb hts⟩
  intro s e s' h
  simp only [signed, bind_ok, remaining_ok] at h
  obtain ⟨_, _, ⟨rfl, rfl⟩, h⟩ := h
  exact hsigns _ _ _ _ h

/-! ## Comparisons and negations -/

theorem sense_ok {op : BinaryOp} {k : BinaryOp → Parse Expr} :
    (if (decide (c = .top) && t.kind == .equal) = true then pure BinaryOp.equation >>= k
      else if c = .condition then pure op >>= k
      else failAt t.offset (.comparisonHere t.kind) >>= k) s = .ok x ↔
    ∃ sense, c.comparison? t op = some sense ∧ k sense s = .ok x := by
  cases c with
  | top => by_cases ht : t.kind = .equal <;> simp [Context.comparison?, ht, bind_ok, failAt_ok]
  | value => simp [Context.comparison?, bind_ok, failAt_ok]
  | condition => simp [Context.comparison?]

theorem comparison_ok {primary : Parse Expr} :
    comparison primary c s = .ok (e, s') ↔ ∃ l u, sum primary s = .ok (l, u) ∧
      ((∃ t, peek u = .ok (t, u) ∧ comparison? t = none ∧ e = l ∧ s' = u) ∨
        ∃ t op sense v e', u = prepend [t] v ∧ comparison? t = some op ∧
          c.comparison? t op = some sense ∧ l.isBool = false ∧ sum primary v = .ok (e', s') ∧
          e'.isBool = false ∧ e = .binary t.offset sense l e') := by
  rw [comparison, bind_ok]
  refine exists_congr fun l => exists_congr fun u => and_congr_right fun _ => ?_
  rw [fork_ok comparison? (fun _ => rfl) (fun t h => by rw [h]) fun t op h => by rw [h]]
  simp only [bind_ok, checkNumber_ok, sense_ok, pure_ok]
  refine or_congr_right ⟨?_, ?_⟩
  · rintro ⟨t, op, v, rfl, hop, _, _, ⟨hl, rfl⟩, sense, hsense, e', _, he', _, _, ⟨hb, rfl⟩, rfl,
      rfl⟩
    exact ⟨t, op, sense, _, e', rfl, hop, hsense, hl, he', hb, rfl⟩
  · rintro ⟨t, op, sense, v, e', rfl, hop, hsense, hl, he', hb, rfl⟩
    exact ⟨t, op, v, rfl, hop, (), v, ⟨hl, rfl⟩, sense, hsense, e', s', he', (), s', ⟨hb, rfl⟩,
      rfl, rfl⟩

theorem negation_ok {primary : Parse Expr} :
    negation primary c s = .ok (e, s') ↔
      (∃ t, peek s = .ok (t, s) ∧ t.keyword? ≠ some .not ∧
        comparison primary c s = .ok (e, s')) ∨
      ∃ t u e', s = prepend [t] u ∧ t.keyword? = some .not ∧ c = .condition ∧
        comparison primary c u = .ok (e', s') ∧ e'.isBool = true ∧
        e = .unary t.offset .not e' := by
  rw [negation, fork_ok (fun t => if t.keyword? = some .not then some () else none) (fun _ => rfl)
    (fun t h => by rw [if_neg (by simpa using h)]) fun t _ h => by rw [if_pos (by simpa using h)]]
  simp only [bind_ok, require_ok, checkCondition_ok, pure_ok, ite_eq_right_iff, reduceCtorEq]
  refine or_congr_right ⟨?_, ?_⟩
  · rintro ⟨t, _, u, hs, hnot, hc, e', _, he', _, _, ⟨hb, rfl⟩, rfl, rfl⟩
    exact ⟨t, u, e', hs, by simpa using hnot, hc, he', hb, rfl⟩
  · rintro ⟨t, u, e', hs, hnot, hc, he', hb, rfl⟩
    exact ⟨t, (), u, hs, by simp [hnot], hc, e', s', he', (), s', ⟨hb, rfl⟩, rfl, rfl⟩

/-! ## Ranks -/

/-- The reader for expressions of a rank, with primaries nested less than `depth` deep. -/
def reader (depth : Nat) (c : Context) : Rank → Parse Expr
  | .disjunction => expression (primary depth c) c
  | .conjunction =>
    chainLeft conjunction? (checkConnective c) checkCondition (negation (primary depth c) c)
  | .negation => negation (primary depth c) c
  | .comparison => comparison (primary depth c) c
  | .sum => sum (primary depth c)
  | .product => product (primary depth c)
  | .factor => signed (power (primary depth c))
  | .power => power (primary depth c)
  | .exponent => signed (primary depth c)
  | .primary => primary depth c

/-- The reader of a rank with operators is the chain of readers of tighter ranks. -/
theorem reader_chain (hr : r.operand ≠ r) (hq : r.tighter? = some q) :
    reader depth c r = chainOf c r (reader depth c q) (reader depth c r.operand) := by
  rw [chainOf, links, Rank.operator?_eq]
  cases r <;> cases hq <;> first | rfl | exact absurd rfl hr

theorem reader_sound_of_primary (hprimary : Sound (primary depth c) (Derives .primary c))
    (r : Rank) : Sound (reader depth c r) (Derives r c) := by
  have hchain {r q : Rank} (hr : r.operand ≠ r) (hq : r.tighter? = some q)
      (hfirst : Sound (reader depth c q) (Derives q c))
      (hoperand : Sound (reader depth c r.operand) (Derives r.operand c)) :
      Sound (reader depth c r) (Derives r c) := by
    rw [reader_chain hr hq]
    exact chainOf_sound hq hfirst hoperand
  have hexponent : Sound (reader depth c .exponent) (Derives .exponent c) :=
    signed_sound rfl rfl hprimary
  have hpower := hchain (r := .power) (by decide) rfl hprimary hexponent
  have hfactor : Sound (reader depth c .factor) (Derives .factor c) := signed_sound rfl rfl hpower
  have hproduct := hchain (r := .product) (by decide) rfl hfactor hfactor
  have hsum := hchain (r := .sum) (by decide) rfl hproduct hproduct
  have hcomparison : Sound (reader depth c .comparison) (Derives .comparison c) := by
    intro s e s' h
    obtain ⟨l, u, hl, hmore⟩ := comparison_ok.1 h
    obtain ⟨ts, rfl, hts⟩ := hsum _ _ _ hl
    rcases hmore with
      ⟨t, -, -, rfl, rfl⟩ | ⟨t, op, sense, v, e', rfl, hop, hsense, hb, he', hb', rfl⟩
    · exact ⟨ts, rfl, .tighter rfl hts⟩
    · obtain ⟨us, rfl, hus⟩ := hsum _ _ _ he'
      exact ⟨ts ++ t :: us, by simp, .compare (comparison?_eq_some_iff.1 hop) hsense hb hb' hts hus⟩
  have hnegation : Sound (reader depth c .negation) (Derives .negation c) := by
    intro s e s' h
    rcases negation_ok.1 h with ⟨t, -, -, h⟩ | ⟨t, u, e', rfl, hnot, rfl, he', hb, rfl⟩
    · obtain ⟨ts, rfl, hts⟩ := hcomparison _ _ _ h
      exact ⟨ts, rfl, .tighter rfl hts⟩
    · obtain ⟨ts, rfl, hts⟩ := hcomparison _ _ _ he'
      exact ⟨t :: ts, by simp, .negate (Token.keyword?_eq_some_iff.1 hnot) hb hts⟩
  have hconjunction := hchain (r := .conjunction) (by decide) rfl hnegation hnegation
  have hdisjunction := hchain (r := .disjunction) (by decide) rfl hconjunction hconjunction
  cases r <;> assumption

/-! ## Arguments -/

section Calls

variable {inside : Context → Parse Expr} {callee : Bytes} {arity : Arity}

theorem argument_ok :
    argument inside callee c s = .ok (e, s') ↔
      inside c s = .ok (e, s') ∧ e.isBool = (c == .condition) := by
  simp only [argument, bind_ok]
  constructor
  · rintro ⟨e1, s1, he, h⟩
    cases c <;> simp only [require_ok, refuse_ok, pure_ok] at h <;> simp_all
  · rintro ⟨he, hb⟩
    refine ⟨e, s', he, ?_⟩
    cases c <;> simp_all [pure_ok]

theorem separator_ok {more close : Parse (List Expr)} {x : List Expr × TokenStream} :
    (match t.kind with
      | .colon => more
      | .rightParen => close
      | _ => failAt offset cause) s = .ok x ↔
      t.kind = .colon ∧ more s = .ok x ∨ t.kind = .rightParen ∧ close s = .ok x := by
  cases t.kind <;> simp [failAt_ok]

/-- Behind an argument stands a colon and further arguments, or the closing parenthesis. -/
theorem moreArguments_ok {done : List Expr} :
    moreArguments inside callee arity (count + 1) c done s = .ok (es, s') ↔
      ∃ e u t v, inside c s = .ok (e, u) ∧ e.isBool = (c == .condition) ∧ u = prepend [t] v ∧
        ((t.kind = .colon ∧ arity.most ≠ some (done.length + 1) ∧
            moreArguments inside callee arity count .value (done ++ [e]) v = .ok (es, s')) ∨
          t.kind = .rightParen ∧ arity.least ≤ done.length + 1 ∧ es = done ++ [e] ∧ s' = v) := by
  simp only [moreArguments, bind_ok, argument_ok, List.length_append, List.length_singleton]
  constructor
  · rintro ⟨e, u, ⟨he, hb⟩, t, v, ht, h⟩
    rcases separator_ok.1 h with ⟨hk, h⟩ | ⟨hk, h⟩
    · refine ⟨e, u, t, v, he, hb, (next_ok (by simp [hk])).1 ht, .inl ⟨hk, ?_⟩⟩
      split at h
      · exact (failAt_ok.1 h).elim
      · exact ⟨‹_›, h⟩
    · refine ⟨e, u, t, v, he, hb, (next_ok (by simp [hk])).1 ht, .inr ⟨hk, ?_⟩⟩
      split at h
      · exact (failAt_ok.1 h).elim
      · exact ⟨Nat.not_lt.1 ‹_›, pure_ok.1 h⟩
  · rintro ⟨e, u, t, v, he, hb, hu, ⟨hk, hmost, h⟩ | ⟨hk, hleast, h⟩⟩
    · refine ⟨e, u, ⟨he, hb⟩, t, v, (next_ok (by simp [hk])).2 hu,
        separator_ok.2 (.inl ⟨hk, ?_⟩)⟩
      rwa [if_neg hmost]
    · refine ⟨e, u, ⟨he, hb⟩, t, v, (next_ok (by simp [hk])).2 hu,
        separator_ok.2 (.inr ⟨hk, ?_⟩)⟩
      rw [if_neg (Nat.not_lt.2 hleast)]
      exact pure_ok.2 h

theorem behind_ok {call element plain : Parse Expr} :
    (match t.kind with
      | .leftParen => call
      | .leftBracket => element
      | _ => plain) s = .ok x ↔
      t.kind = .leftParen ∧ call s = .ok x ∨ t.kind = .leftBracket ∧ element s = .ok x ∨
        (t.kind ≠ .leftParen ∧ t.kind ≠ .leftBracket) ∧ plain s = .ok x := by
  cases t.kind <;> simp

theorem named_ok :
    named inside t s = .ok (e, s') ↔
      (∃ o u, s = prepend [o] u ∧ o.kind = .leftParen ∧ callForm inside t u = .ok (e, s')) ∨
      (∃ o u z index, s = prepend [o] u ∧ o.kind = .leftBracket ∧
        inside .value u = .ok (index, prepend [z] s') ∧ index.isBool = false ∧
        z.kind = .rightBracket ∧ e = .item t.offset t.text index true) ∨
      ∃ o, peek s = .ok (o, s) ∧ (o.kind ≠ .leftParen ∧ o.kind ≠ .leftBracket) ∧
        e = .var t.offset t.text ∧ s' = s := by
  simp only [named, bind_ok]
  constructor
  · rintro ⟨o, _, ho, h⟩
    obtain ⟨rfl, hfront⟩ := peek_ok.1 ho
    rcases behind_ok.1 h with ⟨hk, h⟩ | ⟨hk, h⟩ | ⟨hk, h⟩
    · obtain ⟨_, u, hu, h⟩ := bind_ok.1 h
      rcases hfront with ⟨u', rfl⟩ | ⟨n, -, rfl⟩
      · obtain rfl := advance_ok.1 hu
        exact .inl ⟨o, _, rfl, hk, h⟩
      · simp at hk
    · simp only [bind_ok, checkNumber_ok, expect_ok (by decide : TokenKind.rightBracket ≠ _),
        pure_ok] at h
      obtain ⟨_, u, hu, index, _, hindex, _, _, ⟨hb, rfl⟩, _, _, ⟨z, hz, rfl⟩, rfl, rfl⟩ := h
      rcases hfront with ⟨u', rfl⟩ | ⟨n, -, rfl⟩
      · obtain rfl := advance_ok.1 hu
        exact .inr (.inl ⟨o, _, z, index, rfl, hk, hindex, hb, hz, rfl⟩)
      · simp at hk
    · exact .inr (.inr ⟨o, ho, hk, pure_ok.1 h⟩)
  · rintro (⟨o, u, rfl, hk, h⟩ | ⟨o, u, z, index, rfl, hk, hindex, hb, hz, rfl⟩ |
      ⟨o, ho, hk, rfl, rfl⟩)
    · exact ⟨o, _, peek_ok.2 ⟨rfl, .inl ⟨u, rfl⟩⟩,
        behind_ok.2 (.inl ⟨hk, bind_ok.2 ⟨(), u, advance_ok.2 rfl, h⟩⟩)⟩
    · refine ⟨o, _, peek_ok.2 ⟨rfl, .inl ⟨u, rfl⟩⟩, behind_ok.2 (.inr (.inl ⟨hk, ?_⟩))⟩
      simp only [bind_ok, checkNumber_ok, expect_ok (by decide : TokenKind.rightBracket ≠ _),
        pure_ok]
      exact ⟨(), u, advance_ok.2 rfl, index, _, hindex, (), _, ⟨hb, rfl⟩, (), s', ⟨z, hz, rfl⟩,
        rfl, rfl⟩
    · exact ⟨o, _, ho, behind_ok.2 (.inr (.inr ⟨hk, pure_ok.2 ⟨rfl, rfl⟩⟩))⟩

section

variable (hinside : ∀ c, Sound (inside c) (Derives .disjunction c))

include hinside

theorem moreArguments_sound (count : Nat) {done : List Expr} (hcount : s.tokens.length < count)
    (h : moreArguments inside callee arity count c done s = .ok (es, s')) :
    ∃ ts z more, s = prepend (ts ++ [z]) s' ∧ z.kind = .rightParen ∧ es = done ++ more ∧
      Arguments c ts more := by
  -- each turn passes over a separator, so the bound is never reached
  induction count generalizing c done s with
  | zero => simp at hcount
  | succ count ih =>
    obtain ⟨e, u, t, v, he, hb, rfl, hsep⟩ := moreArguments_ok.1 h
    obtain ⟨ts, rfl, hts⟩ := hinside _ _ _ _ he
    rcases hsep with ⟨hk, -, hmore⟩ | ⟨hk, -, rfl, rfl⟩
    · obtain ⟨us, z, more, rfl, hz, rfl, hus⟩ := ih (by simp at hcount; omega) hmore
      exact ⟨ts ++ t :: us, z, e :: more, by simp, hz, by simp, .more hb hk hts hus⟩
    · exact ⟨ts, t, [e], by simp, hk, rfl, .last hb hts⟩

theorem arguments_sound (h : arguments inside callee arity c s = .ok (es, s')) :
    ∃ ts z, s = prepend (ts ++ [z]) s' ∧ z.kind = .rightParen ∧
      (Arguments c ts es ∨ arity.least = 0 ∧ ts = [] ∧ es = []) := by
  simp only [arguments, bind_ok] at h
  obtain ⟨t, _, ht, h⟩ := h
  obtain ⟨rfl, hfront⟩ := peek_ok.1 ht
  split at h
  · rename_i hk
    simp only [bind_ok, refuse_ok, pure_ok] at h
    obtain ⟨_, u, hu, hleast, rfl, rfl⟩ := h
    rcases hfront with ⟨v, rfl⟩ | ⟨n, -, rfl⟩
    · obtain rfl := advance_ok.1 hu
      exact ⟨[], t, rfl, hk, .inr ⟨by omega, rfl, rfl⟩⟩
    · simp at hk
  · simp only [bind_ok, remaining_ok] at h
    obtain ⟨_, _, ⟨rfl, rfl⟩, h⟩ := h
    obtain ⟨ts, z, more, rfl, hz, rfl, hts⟩ := moreArguments_sound hinside _ (Nat.lt_succ_self _) h
    exact ⟨ts, z, rfl, hz, .inl hts⟩

theorem soleArgument_sound (h : soleArgument inside callee offset s = .ok (e, s')) :
    ∃ ts z, s = prepend (ts ++ [z]) s' ∧ z.kind = .rightParen ∧ Arguments .value ts [e] := by
  simp only [soleArgument, bind_ok] at h
  obtain ⟨es, u, hes, h⟩ := h
  obtain ⟨ts, z, rfl, hz, hargs⟩ := arguments_sound hinside hes
  match es, h with
  | [e'], h =>
    obtain ⟨rfl, rfl⟩ := pure_ok.1 h
    exact ⟨ts, z, rfl, hz, by simpa using hargs⟩
  | [], h | _ :: _ :: _, h => exact (failAt_ok.1 h).elim

/-- A special form is derived by its name, an opening parenthesis and the tokens passed over. -/
theorem specialForm_sound {o : Token} (ht : t.Names) (ho : o.kind = .leftParen) {form : SpecialForm}
    (hform : t.text = utf8 form.name) (h : specialForm inside form t s = .ok (e, s')) :
    ∃ ts, s = prepend ts s' ∧ Derives .primary c (t :: o :: ts) e := by
  have hcalls {z : Token} (hz : z.kind = .rightParen) : t.Calls o z := ⟨ht, ho, hz⟩
  cases form with
  | min | max =>
    simp only [specialForm, bind_ok, pure_ok] at h
    obtain ⟨es, _, hes, rfl, rfl⟩ := h
    obtain ⟨ts, z, rfl, hz, hargs⟩ := arguments_sound hinside hes
    exact ⟨_, rfl, .extremum (hcalls hz) hform (by simpa [Arity.atLeast] using hargs)⟩
  | choice =>
    simp only [specialForm, bind_ok] at h
    obtain ⟨es, u, hes, h⟩ := h
    obtain ⟨ts, z, rfl, hz, hargs⟩ := arguments_sound hinside hes
    split at h
    · obtain ⟨rfl, rfl⟩ := pure_ok.1 h
      exact ⟨_, rfl, .conditional (hcalls hz) hform (by simpa using hargs)⟩
    · exact (failAt_ok.1 h).elim
  | fetch | solving =>
    simp only [specialForm, bind_ok, name_ok, expect_ok (by decide : TokenKind.rightParen ≠ _),
      pure_ok] at h
    obtain ⟨_, _, ⟨n, hn, rfl, rfl⟩, _, _, ⟨z, hz, rfl⟩, rfl, rfl⟩ := h
    refine ⟨[n, z], by simp, ?_⟩
    first
    | exact .fetch (hcalls hz) hform hn
    | exact .solving (hcalls hz) hform hn
  | assign | item =>
    simp only [specialForm, bind_ok, name_ok, expect_ok (by decide : TokenKind.colon ≠ _),
      pure_ok] at h
    obtain ⟨_, _, ⟨n, hn, rfl, rfl⟩, _, _, ⟨m, hm, rfl⟩, e', _, he', rfl, rfl⟩ := h
    obtain ⟨ts, z, rfl, hz, hargs⟩ := soleArgument_sound hinside he'
    refine ⟨n :: m :: (ts ++ [z]), by simp, ?_⟩
    first
    | exact .assign (hcalls hz) hform hn hm hargs
    | exact .item (hcalls hz) hform hn hm hargs
  | sigma =>
    simp only [specialForm, bind_ok, name_ok, expect_ok (by decide : TokenKind.colon ≠ _)] at h
    obtain ⟨_, _, ⟨n, hn, rfl, rfl⟩, _, _, ⟨m, hm, rfl⟩, es, u, hes, h⟩ := h
    obtain ⟨ts, z, rfl, hz, hargs⟩ := arguments_sound hinside hes
    split at h
    · obtain ⟨rfl, rfl⟩ := pure_ok.1 h
      exact ⟨n :: m :: (ts ++ [z]), by simp, .sigma (hcalls hz) hform hn hm (by simpa using hargs)⟩
    · exact (failAt_ok.1 h).elim

theorem callForm_sound {o : Token} (ht : t.Names) (ho : o.kind = .leftParen)
    (h : callForm inside t s = .ok (e, s')) :
    ∃ ts, s = prepend ts s' ∧ Derives .primary c (t :: o :: ts) e := by
  unfold callForm at h
  cases hfn : Function.ofName? t.text with
  | some fn =>
    simp only [hfn, bind_ok, pure_ok] at h
    obtain ⟨e', _, he', rfl, rfl⟩ := h
    obtain ⟨ts, z, rfl, hz, hargs⟩ := soleArgument_sound hinside he'
    exact ⟨_, rfl, .apply ⟨ht, ho, hz⟩ (Function.ofName?_eq_some_iff.1 hfn) hargs⟩
  | none =>
    cases hform : SpecialForm.ofName? t.text with
    | some form =>
      simp only [hfn, hform] at h
      exact specialForm_sound hinside ht ho (SpecialForm.ofName?_eq_some_iff.1 hform) h
    | none =>
      simp only [hfn, hform, bind_ok, pure_ok] at h
      obtain ⟨es, _, hes, rfl, rfl⟩ := h
      have hfree := not_mem_reserved_iff.2 ⟨hfn, hform⟩
      obtain ⟨ts, z, rfl, hz, hargs | ⟨-, rfl, rfl⟩⟩ := arguments_sound hinside hes
      · exact ⟨_, rfl, .call ⟨ht, ho, hz⟩ hfree hargs⟩
      · exact ⟨[z], rfl, .callEmpty ⟨ht, ho, hz⟩ hfree⟩

theorem named_sound (ht : t.Names) (h : named inside t s = .ok (e, s')) :
    ∃ ts, s = prepend ts s' ∧ Derives .primary c (t :: ts) e := by
  rcases named_ok.1 h with
    ⟨o, u, rfl, hk, hcall⟩ | ⟨o, u, z, index, rfl, hk, hindex, hb, hz, rfl⟩ | ⟨-, -, -, rfl, rfl⟩
  · obtain ⟨ts, rfl, hts⟩ := callForm_sound hinside ht hk hcall
    exact ⟨o :: ts, by simp, hts⟩
  · obtain ⟨ts, rfl, hts⟩ := hinside _ _ _ _ hindex
    exact ⟨o :: (ts ++ [z]), by simp, .element ht hk hz hb hts⟩
  · exact ⟨[], rfl, .var ht⟩

end

end Calls

/-! ## Primaries and equations -/

theorem literal_ok :
    literal t s = .ok (e, s') ↔ ∃ bits, Decimal.read (plainNumber t.text) = .ok bits ∧
      e = .literal t.offset (Float.ofBits bits) t.text ∧ s' = s := by
  unfold literal
  cases h : Decimal.read (plainNumber t.text) with
  | ok bits => simp [pure_ok]
  | error cause =>
    show Except.error _ = _ ↔ _
    simp

theorem start_ok {number group word : Parse Expr} {p q : Nat} {cause' : SyntaxFault} :
    (match t.kind with
      | .number => number
      | .leftParen => group
      | .ident => word
      | .endOfText => failAt p cause
      | _ => failAt q cause') s = .ok x ↔
      t.kind = .number ∧ number s = .ok x ∨ t.kind = .leftParen ∧ group s = .ok x ∨
        t.kind = .ident ∧ word s = .ok x := by
  cases t.kind <;> simp [failAt_ok]

/-- A primary is a number, an expression in parentheses, or what starts with a name. -/
theorem primary_ok :
    primary (depth + 1) c s = .ok (e, s') ↔
      ∃ t u, s = prepend [t] u ∧
        ((t.kind = .number ∧ literal t u = .ok (e, s')) ∨
          (∃ z inner, t.kind = .leftParen ∧
            reader depth c.inner .disjunction u = .ok (inner, prepend [z] s') ∧
            z.kind = .rightParen ∧ e = .group t.offset inner) ∨
          (t.Names ∧ named (fun c => reader depth c .disjunction) t u = .ok (e, s'))) := by
  simp only [primary, bind_ok]
  constructor
  · rintro ⟨t, u, ht, h⟩
    have hnext (hk : t.kind ≠ .endOfText) : s = prepend [t] u := (next_ok hk).1 ht
    rcases start_ok.1 h with ⟨hk, h⟩ | ⟨hk, h⟩ | ⟨hk, h⟩
    · exact ⟨t, u, hnext (by simp [hk]), .inl ⟨hk, h⟩⟩
    · simp only [bind_ok, expect_ok (by decide : TokenKind.rightParen ≠ _), pure_ok] at h
      obtain ⟨inner, _, hinner, _, _, ⟨z, hz, rfl⟩, rfl, rfl⟩ := h
      exact ⟨t, u, hnext (by simp [hk]), .inr (.inl ⟨z, inner, hk, hinner, hz, rfl⟩)⟩
    · split at h
      · rename_i hname
        simp only [bind_ok, checkLength_ok] at h
        obtain ⟨_, _, ⟨hlength, rfl⟩, hnamed⟩ := h
        exact ⟨t, _, hnext (by simp [hk]), .inr (.inr ⟨⟨hname, hlength⟩, hnamed⟩)⟩
      · exact (failAt_ok.1 h).elim
  · rintro ⟨t, u, hs, ⟨hk, h⟩ | ⟨z, inner, hk, hinner, hz, rfl⟩ | ⟨hname, h⟩⟩
    · exact ⟨t, u, (next_ok (by simp [hk])).2 hs, start_ok.2 (.inl ⟨hk, h⟩)⟩
    · refine ⟨t, u, (next_ok (by simp [hk])).2 hs, start_ok.2 (.inr (.inl ⟨hk, ?_⟩))⟩
      simp only [bind_ok, expect_ok (by decide : TokenKind.rightParen ≠ _), pure_ok]
      exact ⟨inner, _, hinner, (), s', ⟨z, hz, rfl⟩, rfl, rfl⟩
    · have hk := kind_of_isName hname.isName
      refine ⟨t, u, (next_ok (by simp [hk])).2 hs, start_ok.2 (.inr (.inr ⟨hk, ?_⟩))⟩
      simp only [hname.isName, if_true, bind_ok, checkLength_ok]
      exact ⟨(), u, ⟨hname.short, rfl⟩, h⟩

/-- Primaries are read soundly, however deep they are nested. -/
theorem primary_sound (depth : Nat) (c : Context) :
    Sound (primary depth c) (Derives .primary c) := by
  induction depth generalizing c with
  | zero =>
    intro s e s' h
    simp only [primary, bind_ok, failAt_ok] at h
    obtain ⟨_, _, -, h⟩ := h
    exact h.elim
  | succ depth ih =>
    have hinside (c : Context) :
        Sound (reader depth c .disjunction) (Derives .disjunction c) :=
      reader_sound_of_primary (ih c) .disjunction
    intro s e s' h
    obtain ⟨t, u, rfl, ⟨hk, h⟩ | ⟨z, inner, hk, hinner, hz, rfl⟩ | ⟨hname, h⟩⟩ := primary_ok.1 h
    · obtain ⟨bits, hbits, rfl, rfl⟩ := literal_ok.1 h
      exact ⟨[t], rfl, .literal hk hbits⟩
    · obtain ⟨ts, rfl, hts⟩ := hinside _ _ _ _ hinner
      exact ⟨t :: (ts ++ [z]), by simp, .group hk hz hts⟩
    · obtain ⟨ts, rfl, hts⟩ := named_sound hinside hname h
      exact ⟨t :: ts, by simp, hts⟩

theorem tag_of_untagged (h : Untagged s.tokens) : tag s = .ok (none, s) := by
  obtain ⟨tokens, ending⟩ := s
  match tokens, h with
  | [], _ | [_], _ => rfl
  | t :: m :: us, h =>
    have hfront : ¬ (t.isName && m.kind == .colon) = true := by
      simpa using h t m us rfl
    show (if (t.isName && m.kind == .colon) = true then _ else pure none : Parse (Option Token))
      _ = _
    rw [if_neg hfront]
    rfl

/-- Behind a name and a colon at the front, the equation goes on without them. -/
theorem tag_prepend_ok {m : Token} (ht : t.isName = true) (hm : m.kind = .colon)
    {tag? : Option Token} :
    tag (prepend [t, m] s) = .ok (tag?, s') ↔ t.Names ∧ tag? = some t ∧ s' = s := by
  have hfront : (t.isName && m.kind == .colon) = true := by simp [ht, hm]
  show (if (t.isName && m.kind == .colon) = true then _ else pure none : Parse (Option Token)) _ = _
    ↔ _
  rw [if_pos hfront]
  simp only [bind_ok, checkLength_ok, pure_ok]
  constructor
  · rintro ⟨_, _, ⟨hlength, rfl⟩, _, _, hadvance, _, _, hadvance', rfl, rfl⟩
    obtain rfl := (advance_ok (s := prepend [m] s)).1 hadvance
    exact ⟨⟨ht, hlength⟩, rfl, advance_ok.1 hadvance'⟩
  · rintro ⟨hname, rfl, rfl⟩
    exact ⟨(), _, ⟨hname.short, rfl⟩, (), prepend [m] s', rfl, (), s', rfl, rfl, rfl⟩

theorem tagged_or_untagged (s : TokenStream) :
    Untagged s.tokens ∨ ∃ t m u, t.isName = true ∧ m.kind = .colon ∧ s = prepend [t, m] u := by
  obtain ⟨tokens, ending⟩ := s
  match tokens with
  | [] => exact .inl (by simp [Untagged])
  | [t] => exact .inl (.singleton t)
  | t :: m :: us =>
    by_cases ht : t.isName = true
    · by_cases hm : m.kind = .colon
      · exact .inr ⟨t, m, ⟨us, ending⟩, ht, hm, rfl⟩
      · exact .inl (.of_second hm us)
    · exact .inl (.of_not_name (by simpa using ht) _)

theorem equation_sound (hs : ∀ t ∈ s.tokens, t.kind ≠ .endOfText) (h : equation s = .ok (e, s')) :
    (∃ n, s.ending = .ok n) ∧ DerivesEquation s.tokens e := by
  simp only [equation, next, bind_ok, remaining_ok, require_ok, pure_ok] at h
  obtain ⟨tag?, s1, htag, _, _, ⟨rfl, rfl⟩, e', s2, he', t, s3, ⟨_, _, ht, _, _, -, rfl, rfl⟩,
    hend, h⟩ := h
  obtain ⟨ts, rfl, hts⟩ := reader_sound_of_primary (primary_sound _ _) .disjunction _ _ _ he'
  obtain ⟨-, hfront⟩ := peek_ok.1 ht
  -- the end of the text is no token of the stream
  have hrest (us : List Token) (hus : s.tokens = us ++ s2.tokens) : ∃ n, s2 = ⟨[], .ok n⟩ := by
    rcases hfront with ⟨v, rfl⟩ | ⟨n, rfl, -⟩
    · exact absurd hend (hs _ (by simp [hus]))
    · exact ⟨n, rfl⟩
  rcases tagged_or_untagged s with hun | ⟨name, m, u, hname, hm, rfl⟩
  · rw [tag_of_untagged hun] at htag
    obtain ⟨rfl, rfl⟩ : none = tag? ∧ s = prepend ts s2 := by simpa using htag
    obtain ⟨n, rfl⟩ := hrest _ rfl
    obtain ⟨rfl, -⟩ := pure_ok.1 h
    exact ⟨⟨n, rfl⟩, .plain (by simpa using hts)⟩
  · obtain ⟨hnames, rfl, rfl⟩ := (tag_prepend_ok hname hm).1 htag
    obtain ⟨n, rfl⟩ := hrest (name :: m :: ts) (by simp)
    obtain ⟨rfl, -⟩ := pure_ok.1 h
    exact ⟨⟨n, rfl⟩, by simpa using DerivesEquation.tagged hnames hm hts⟩

end Parse

end Keystroke
