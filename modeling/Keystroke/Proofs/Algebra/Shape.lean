import Keystroke.Algebra.Isolation
import Keystroke.Proofs.Algebra.Lexing

set_option autoImplicit false

/-! # The shape of trees

A tree fits a rank and a context if it has the shape of an expression of that rank: looser
operators stand below tighter ones only in parentheses or arguments, conditions stand where they
may, and names and numbers can be spelled. Every tree that the grammar derives fits, and solving
for a variable keeps the shape, since it puts its operands in parentheses. -/

namespace Keystroke

variable {compat : Bool} {l : Expr} {name : Bytes}

variable {q r : Rank} {t : Token} {op : BinaryOp} {c : Context} {e other side : Expr} {p : Nat}

/-! ## Ranks and operators -/

namespace Rank

/-- The expressions of the first rank are expressions of the second. -/
inductive Within : Rank → Rank → Prop
  | refl (r : Rank) : Within r r
  | step {q p r : Rank} : r.tighter? = some p → Within q p → Within q r

theorem Within.trans {p : Rank} (h : p.Within q) (h' : q.Within r) : p.Within r := by
  induction h' with
  | refl => exact h
  | step hr _ ih => exact .step hr ih

theorem primary_within (r : Rank) : primary.Within r := by
  have hpower : primary.Within power := .step rfl (.refl _)
  have hfactor : primary.Within factor := .step rfl hpower
  have hproduct : primary.Within product := .step rfl hfactor
  have hsum : primary.Within sum := .step rfl hproduct
  have hcomparison : primary.Within comparison := .step rfl hsum
  have hnegation : primary.Within negation := .step rfl hcomparison
  have hconjunction : primary.Within conjunction := .step rfl hnegation
  have hdisjunction : primary.Within disjunction := .step rfl hconjunction
  have hexponent : primary.Within exponent := .step rfl (.refl _)
  cases r <;> first | assumption | exact .refl _

theorem eq_exponent_of_within (h : exponent.Within r) : r = exponent := by
  generalize hq : exponent = q at h
  induction h with
  | refl => rfl
  | @step p r hr _ ih =>
    subst hq ih
    cases r <;> simp [tighter?] at hr

theorem within_exponent (h : q.Within exponent) : q = exponent ∨ q = primary := by
  cases h with
  | refl => exact .inl rfl
  | step hp h =>
    cases hp
    cases h with
    | refl => exact .inr rfl
    | step hp _ => cases hp

theorem sum_within_disjunction : sum.Within disjunction :=
  .step rfl (.step rfl (.step rfl (.step rfl (.refl _))))

end Rank

namespace BinaryOp

/-- The rank of the expressions that the operator makes. -/
def rank : BinaryOp → Rank
  | add | sub => .sum
  | mul | div => .product
  | pow => .power
  | equation | eq | ne | lt | le | gt | ge => .comparison
  | and => .conjunction
  | or | xor => .disjunction

/-- The rank of the left operand. -/
def leftRank (op : BinaryOp) : Rank := if op.rank = .comparison then .sum else op.rank

/-- The rank of the right operand. -/
def rightRank (op : BinaryOp) : Rank := if op.rank = .comparison then .sum else op.rank.operand

/-- The only context where the operator may stand. -/
def context? : BinaryOp → Option Context
  | equation => some .top
  | op => if op.isComparison || op.isLogical then some .condition else none

end BinaryOp

theorem Rank.rank_of_operator (h : r.operator? t = some op) :
    op.rank = r ∧ op.leftRank = r ∧ op.rightRank = r.operand ∧ op.isLogical = r.joinsConditions ∧
      ∀ c, op.context? = some c → r.joinsConditions = true ∧ c = .condition := by
  unfold operator? at h
  repeat' split at h
  all_goals
    cases h <;>
      simp [BinaryOp.rank, BinaryOp.leftRank, BinaryOp.rightRank, operand, BinaryOp.isLogical,
        joinsConditions, BinaryOp.context?, BinaryOp.isComparison, eq_comm]

theorem rank_of_comparison {sense : BinaryOp} (h : (t.kind, op) ∈ comparisonTokens)
    (hsense : c.comparison? t op = some sense) :
    sense.rank = .comparison ∧ sense.isLogical = false ∧ ∀ k, sense.context? = some k → c = k := by
  have hop : op.isComparison = true ∧ op ≠ .equation := by
    cases op <;> simp_all [comparisonTokens, BinaryOp.isComparison]
  cases c with
  | top =>
    simp only [Context.comparison?] at hsense
    split at hsense <;> cases hsense
    simp [BinaryOp.rank, BinaryOp.isLogical, BinaryOp.context?]
  | value => simp [Context.comparison?] at hsense
  | condition =>
    obtain rfl : op = sense := by simpa [Context.comparison?] using hsense
    revert hop
    cases op <;> simp [BinaryOp.rank, BinaryOp.isLogical, BinaryOp.context?, BinaryOp.isComparison]

/-! ## Shapes -/

/-- A name that can be written in an equation. -/
structure Writable (compat : Bool) (name : Bytes) : Prop where
  text : NameText compat name
  notKeyword : Keyword.ofText? name = none
  short : name.length ≤ maxNameLength

/-- The text spells the number. -/
structure Denotes (text : Bytes) (value : Float) : Prop where
  isNumber : NumberText text
  reads : ∃ bits, Decimal.read (Parse.plainNumber text) = .ok bits ∧ Float.ofBits bits = value

namespace Expr

mutual

/-- The tree has the shape of an expression of the rank in the context. -/
def Fits (compat : Bool) : Rank → Context → Expr → Prop
  | _, _, literal _ value text =>
    Denotes (if text.isEmpty then canonicalNumber value.toBits else text) value
  | _, _, var _ name | _, _, fetch _ name | _, _, solving _ name => Writable compat name
  | r, c, unary _ .not e =>
    Rank.negation.Within r ∧ c = .condition ∧ e.isBool = true ∧ e.Fits compat .comparison c
  | r, c, unary _ _ e =>
    e.isBool = false ∧ (Rank.factor.Within r ∧ e.Fits compat .factor c ∨
      r = .exponent ∧ e.Fits compat .exponent c)
  | _, c, group _ e => e.Fits compat .disjunction c.inner
  | r, c, binary _ op l e =>
    op.rank.Within r ∧ (∀ k, op.context? = some k → c = k) ∧
      l.isBool = op.isLogical ∧ e.isBool = op.isLogical ∧
      l.Fits compat op.leftRank c ∧ e.Fits compat op.rightRank c
  | _, _, apply _ _ e => e.isBool = false ∧ e.Fits compat .disjunction .value
  | _, _, extremum _ _ es => es ≠ [] ∧ FitsAll compat es
  | _, _, call _ name es =>
    Writable compat name ∧ name ∉ reserved ∧ FitsAll compat es
  | _, _, conditional _ e y n =>
    (e.isBool = true ∧ e.Fits compat .disjunction .condition) ∧
      (y.isBool = false ∧ y.Fits compat .disjunction .value) ∧
      n.isBool = false ∧ n.Fits compat .disjunction .value
  | _, _, sigma _ index a b s e =>
    Writable compat index ∧ (a.isBool = false ∧ a.Fits compat .disjunction .value) ∧
      (b.isBool = false ∧ b.Fits compat .disjunction .value) ∧
      (s.isBool = false ∧ s.Fits compat .disjunction .value) ∧
      e.isBool = false ∧ e.Fits compat .disjunction .value
  | _, _, assign _ name e =>
    Writable compat name ∧ e.isBool = false ∧ e.Fits compat .disjunction .value
  | _, _, item _ name e bracket =>
    Writable compat name ∧ (bracket = true → compat = false) ∧
      e.isBool = false ∧ e.Fits compat .disjunction .value
  | _, _, tagged _ _ _ => False

/-- The trees are numbers that can stand as arguments. -/
def FitsAll (compat : Bool) : List Expr → Prop
  | [] => True
  | e :: es => (e.isBool = false ∧ e.Fits compat .disjunction .value) ∧ FitsAll compat es

end

/-- The trees can stand as arguments, the first one in the context. -/
def FitsArguments (compat : Bool) (c : Context) : List Expr → Prop
  | [] => False
  | e :: es =>
    (e.isBool = (c == .condition) ∧ e.Fits compat .disjunction c) ∧ FitsAll compat es

theorem Fits.mono (h : e.Fits compat q c) (hr : q.Within r) : e.Fits compat r c := by
  cases e with
  | unary p op e =>
    cases op with
    | not =>
      obtain ⟨hq, hrest⟩ := h
      exact ⟨hq.trans hr, hrest⟩
    | neg | pos =>
      obtain ⟨hbool, ⟨hq, hrest⟩ | ⟨rfl, hrest⟩⟩ := h
      · exact ⟨hbool, .inl ⟨hq.trans hr, hrest⟩⟩
      · exact ⟨hbool, .inr ⟨Rank.eq_exponent_of_within hr, hrest⟩⟩
  | binary p op l e =>
    obtain ⟨hq, hrest⟩ := h
    exact ⟨hq.trans hr, hrest⟩
  | _ => exact h

end Expr

/-! ## Derived trees fit -/

theorem writable_of_names (h : t.Names) (ht : t.Spelled compat) : Writable compat t.text := by
  have hname := h.isName
  simp only [Token.isName, Bool.and_eq_true, beq_iff_eq, Option.isNone_iff_eq_none] at hname
  exact ⟨ht.name hname.1, hname.2, h.short⟩

open Keystroke.Expr Rank

mutual

theorem Derives.fits {compat : Bool} : ∀ {r : Rank} {c : Context} {ts : List Token} {e : Expr},
    Derives r c ts e → (∀ t ∈ ts, t.Spelled compat) → e.Fits compat r c
  | _, _, _, _, .tighter hq h, hts => (h.fits hts).mono (.step hq (.refl _))
  | _, _, _, _, .chain hop hc hl he hleft hright, hts => by
    obtain ⟨hrank, hlrank, hrrank, hlogical, hcontext⟩ := rank_of_operator hop
    refine ⟨hrank ▸ .refl _, fun k hk => ?_, by rw [hl, hlogical], by rw [he, hlogical], ?_, ?_⟩
    · obtain ⟨hjoins, rfl⟩ := hcontext k hk
      exact hc hjoins
    · rw [hlrank]
      exact hleft.fits fun t ht => hts t (by simp [ht])
    · rw [hrrank]
      exact hright.fits fun t ht => hts t (by simp [ht])
  | r, c, _, _, @Derives.sign _ _ _ op _ e hr hop he h, hts => by
    have hfits := h.fits fun t ht => hts t (by simp [ht])
    have hne : op ≠ .not := by
      rintro rfl
      simp [signTokens] at hop
    have hrank : factor.Within r ∧ e.Fits compat .factor c ∨
        r = .exponent ∧ e.Fits compat .exponent c := by
      cases r <;> simp_all [takesSigns, Rank.Within.refl]
    cases op with
    | not => exact absurd rfl hne
    | neg | pos => exact ⟨he, hrank⟩
  | _, _, _, _, .compare hop hsense hl he hleft hright, hts => by
    obtain ⟨hrank, hlogical, hcontext⟩ := rank_of_comparison hop hsense
    refine ⟨hrank ▸ .refl _, hcontext, by rw [hl, hlogical], by rw [he, hlogical], ?_, ?_⟩
    · rw [BinaryOp.leftRank, if_pos hrank]
      exact hleft.fits fun t ht => hts t (by simp [ht])
    · rw [BinaryOp.rightRank, if_pos hrank]
      exact hright.fits fun t ht => hts t (by simp [ht])
  | _, _, _, _, .negate ht he h, hts =>
    ⟨.refl _, rfl, he, h.fits fun t ht => hts t (by simp [ht])⟩
  | _, _, _, _, .literal (t := t) hk hbits, hts => by
    have htext := (hts t (by simp)).number hk
    have hne : t.text.isEmpty = false := by
      obtain ⟨b, rest, hstart, -⟩ := htext.exists_start
      simp [hstart]
    refine ⟨?_, ?_⟩ <;> rw [if_neg (by simp [hne])]
    · exact htext
    · exact ⟨_, hbits, rfl⟩
  | _, _, _, _, .var ht, hts => writable_of_names ht (hts _ (by simp))
  | _, _, _, _, .group _ _ h, hts => h.fits fun t ht => hts t (by simp [ht])
  | _, _, _, _, .element ht ho _ he h, hts =>
    ⟨writable_of_names ht (hts _ (by simp)), fun _ => (hts _ (by simp)).bracket ho, he,
      h.fits fun t ht => hts t (by simp [ht])⟩
  | _, _, _, _, .apply _ _ hargs, hts =>
    (hargs.fits fun t ht => hts t (by simp [ht])).1
  | _, _, _, _, @Derives.extremum _ _ _ _ _ _ (_ :: _) _ _ hargs, hts =>
    ⟨by simp, hargs.fits fun t ht => hts t (by simp [ht])⟩
  | _, _, _, _, .conditional _ _ hargs, hts => by
    obtain ⟨he, hy, hn, -⟩ := hargs.fits fun t ht => hts t (by simp [ht])
    exact ⟨he, hy, hn⟩
  | _, _, _, _, .fetch _ _ hn, hts | _, _, _, _, .solving _ _ hn, hts =>
    writable_of_names hn (hts _ (by simp))
  | _, _, _, _, .assign _ _ hn _ hargs, hts =>
    ⟨writable_of_names hn (hts _ (by simp)), (hargs.fits fun t ht => hts t (by simp [ht])).1⟩
  | _, _, _, _, .item _ _ hn _ hargs, hts =>
    ⟨writable_of_names hn (hts _ (by simp)), nofun,
      (hargs.fits fun t ht => hts t (by simp [ht])).1⟩
  | _, _, _, _, .sigma _ _ hn _ hargs, hts => by
    obtain ⟨ha, hb, hs, he, -⟩ := hargs.fits fun t ht => hts t (by simp [ht])
    exact ⟨writable_of_names hn (hts _ (by simp)), ha, hb, hs, he⟩
  | _, _, _, _, @Derives.call _ _ _ _ _ (_ :: _) h hfree hargs, hts =>
    ⟨writable_of_names h.toNames (hts _ (by simp)), hfree,
      hargs.fits fun t ht => hts t (by simp [ht])⟩
  | _, _, _, _, .callEmpty h hfree, hts =>
    ⟨writable_of_names h.toNames (hts _ (by simp)), hfree, trivial⟩

theorem Arguments.fits {compat : Bool} : ∀ {c : Context} {ts : List Token} {es : List Expr},
    Arguments c ts es → (∀ t ∈ ts, t.Spelled compat) → FitsArguments compat c es
  | _, _, _, .last he h, hts => ⟨⟨he, h.fits hts⟩, trivial⟩
  | _, _, _, @Arguments.more _ _ _ _ _ (_ :: _) he _ h hmore, hts =>
    ⟨⟨he, h.fits fun t ht => hts t (by simp [ht])⟩,
      hmore.fits fun t ht => hts t (by simp [ht])⟩

end

/-! ## Solving keeps the shape -/

/-- Whether the expressions of the rank hold no comparison outside parentheses. -/
def Rank.isArithmetic : Rank → Bool
  | disjunction | conjunction | negation | comparison => false
  | _ => true

theorem Rank.isArithmetic_of_within (h : q.Within r) (hr : r.isArithmetic = true) :
    q.isArithmetic = true := by
  induction h with
  | refl => exact hr
  | @step p r hp _ ih => exact ih (by cases r <;> cases hp <;> simp_all [isArithmetic])

theorem BinaryOp.of_isArithmetic (h : op.rank.isArithmetic = true) :
    op.context? = none ∧ op.isLogical = false ∧ op.rank.Within .sum ∧
      op.leftRank = op.rank ∧ op.rightRank.isArithmetic = true := by
  have hsum : sum.Within .sum := .refl _
  have hproduct : product.Within .sum := .step rfl (.refl _)
  have hpower : Rank.power.Within .sum := .step rfl (.step rfl (.step rfl (.refl _)))
  cases op <;> first
    | exact ⟨rfl, rfl, by assumption, rfl, rfl⟩
    | simp [rank, isArithmetic] at h

namespace Expr

variable {compat : Bool}

theorem Fits.of_inner : ∀ {r : Rank} {c d : Context} {e : Expr}, e.Fits compat r c →
    r.isArithmetic = true → c.inner = d.inner → e.Fits compat r d
  | _, _, _, unary _ .not e, h, hr, _ => by
    have := isArithmetic_of_within h.1 hr
    simp [isArithmetic] at this
  | _, _, _, unary _ .neg e, h, _, hd | _, _, _, unary _ .pos e, h, _, hd => by
    obtain ⟨hbool, ⟨hwithin, he⟩ | ⟨rfl, he⟩⟩ := h
    · exact ⟨hbool, .inl ⟨hwithin, he.of_inner rfl hd⟩⟩
    · exact ⟨hbool, .inr ⟨rfl, he.of_inner rfl hd⟩⟩
  | _, _, _, binary _ op l e, h, hr, hd => by
    obtain ⟨hwithin, -, hl, he, hleft, hright⟩ := h
    have hop := isArithmetic_of_within hwithin hr
    obtain ⟨hcontext, -, -, hlrank, hrrank⟩ := BinaryOp.of_isArithmetic hop
    exact ⟨hwithin, by simp [hcontext], hl, he, hleft.of_inner (hlrank ▸ hop) hd,
      hright.of_inner hrrank hd⟩
  | _, _, d, group _ e, h, _, hd => by
    simp only [Fits, hd] at h ⊢
    exact h
  | _, _, _, literal _ _ _, h, _, _ | _, _, _, var _ _, h, _, _ | _, _, _, fetch _ _, h, _, _
  | _, _, _, solving _ _, h, _, _ | _, _, _, apply _ _ _, h, _, _
  | _, _, _, extremum _ _ _, h, _, _ | _, _, _, call _ _ _, h, _, _
  | _, _, _, conditional _ _ _ _, h, _, _ | _, _, _, sigma _ _ _ _ _ _, h, _, _
  | _, _, _, assign _ _ _, h, _, _ | _, _, _, item _ _ _ _, h, _, _ => h

theorem Fits.of_exponent : ∀ {c : Context} {e : Expr}, e.Fits compat .exponent c →
    e.Fits compat .factor c
  | _, unary _ .not _, h => by
    rcases within_exponent h.1 with h | h <;> cases h
  | _, unary _ .neg e, ⟨hbool, h⟩ | _, unary _ .pos e, ⟨hbool, h⟩ => by
    rcases h with ⟨h, -⟩ | ⟨-, he⟩
    · rcases within_exponent h with h | h <;> cases h
    · exact ⟨hbool, .inl ⟨.refl _, he.of_exponent⟩⟩
  | _, binary _ op _ _, h => by
    rcases within_exponent h.1 with h | h <;> cases op <;> cases h
  | _, group _ _, h | _, literal _ _ _, h | _, var _ _, h | _, fetch _ _, h | _, solving _ _, h
  | _, apply _ _ _, h | _, extremum _ _ _, h | _, call _ _ _, h | _, conditional _ _ _ _, h
  | _, sigma _ _ _ _ _ _, h | _, assign _ _ _, h | _, item _ _ _ _, h => h

/-- A number, as it can stand as an operand of a sum. -/
structure Numeric (compat : Bool) (e : Expr) : Prop where
  notBool : e.isBool = false
  fits : e.Fits compat .sum .value

theorem Numeric.of_fits (hbool : e.isBool = false) (h : e.Fits compat r c) (hr : r.Within .sum)
    (hc : c ≠ .condition) : Numeric compat e := by
  refine ⟨hbool, (h.mono hr).of_inner rfl ?_⟩
  cases c <;> first | rfl | exact absurd rfl hc

theorem Numeric.parenthesized (h : Numeric compat e) :
    e.parenthesized.isBool = false ∧ e.parenthesized.Fits compat .primary .value := by
  have hloose : e.Fits compat .disjunction .value := h.fits.mono sum_within_disjunction
  obtain ⟨hbool, hfits⟩ := h
  cases e with
  | unary | binary => exact ⟨hbool, hloose⟩
  | _ => exact ⟨hbool, hfits⟩

theorem Numeric.operation (hop : op.rank.isArithmetic = true) (hl : Numeric compat l)
    (he : Numeric compat e) (p : Nat) :
    Numeric compat (binary p op l.parenthesized e.parenthesized) := by
  obtain ⟨hcontext, hlogical, hwithin, -, -⟩ := BinaryOp.of_isArithmetic hop
  obtain ⟨hlbool, hlfits⟩ := hl.parenthesized
  obtain ⟨hebool, hefits⟩ := he.parenthesized
  refine ⟨?_, hwithin, by simp [hcontext], by rw [hlbool, hlogical], by rw [hebool, hlogical],
    hlfits.mono (primary_within _), hefits.mono (primary_within _)⟩
  cases op <;> first | rfl | simp [BinaryOp.rank, isArithmetic] at hop

theorem Numeric.function (he : Numeric compat e) (p : Nat) (fn : Function) :
    Numeric compat (apply p fn e) :=
  ⟨rfl, he.notBool, he.fits.mono sum_within_disjunction⟩

/-- The numbers that a rearrangement makes are read back from their canonical spelling. -/
theorem numeric_zero (p : Nat) : Numeric compat (literal p 0 []) := by
  refine ⟨rfl, ?_⟩
  exact ⟨⟨by decide, by decide⟩, 0, rfl, by decide⟩

theorem numeric_one (p : Nat) : Numeric compat (literal p 1 []) := by
  refine ⟨rfl, ?_⟩
  exact ⟨⟨by decide, by decide⟩, 0x3FF0000000000000, rfl, by decide⟩

theorem numeric_undoLeft (hother : Numeric compat other) (hside : Numeric compat side)
    (h : undoLeft p other side op = some e) : Numeric compat e := by
  cases op <;> cases h
  case pow =>
    have hinverse : Numeric compat (binary p .div (literal p 1 []) other.parenthesized) :=
      Numeric.operation rfl (numeric_one p) hother p
    exact hside.operation rfl hinverse p
  all_goals exact hside.operation rfl hother p

theorem numeric_undoRight (hother : Numeric compat other) (hside : Numeric compat side)
    (h : undoRight p other side op = some e) : Numeric compat e := by
  cases op <;> cases h
  case pow => exact (hside.function p .log).operation rfl (hother.function p .log) p
  case sub => exact hother.operation rfl hside p
  case div => exact hother.operation rfl hside p
  all_goals exact hside.operation rfl hother p

theorem Fits.numeric_operands (h : (binary p op l e).Fits compat r c)
    (hop : op.rank.isArithmetic = true) (hc : c ≠ .condition) :
    Numeric compat l ∧ Numeric compat e := by
  obtain ⟨-, hlogical, hwithin, hlrank, -⟩ := BinaryOp.of_isArithmetic hop
  obtain ⟨-, -, hl, he, hleft, hright⟩ := h
  have hfactor : factor.Within .sum := .step rfl (.step rfl (.refl _))
  have hproduct : product.Within .sum := .step rfl (.refl _)
  refine ⟨.of_fits (hl.trans hlogical) hleft (hlrank ▸ hwithin) hc, ?_⟩
  have hbool := he.trans hlogical
  cases op with
  | add | sub => exact .of_fits hbool hright hproduct hc
  | mul | div => exact .of_fits hbool hright hfactor hc
  | pow => exact .of_fits hbool hright.of_exponent hfactor hc
  | _ => simp [BinaryOp.rank, isArithmetic] at hop

theorem isArithmetic_of_undoLeft (h : undoLeft p other side op = some e) :
    op.rank.isArithmetic = true := by
  cases op <;> first | rfl | simp [undoLeft] at h

theorem isArithmetic_of_undoRight (h : undoRight p other side op = some e) :
    op.rank.isArithmetic = true := by
  cases op <;> first | rfl | simp [undoRight] at h

theorem Fits.of_sign {op : UnaryOp} (hop : op ≠ .not)
    (h : (unary p op e).Fits compat .disjunction c) : e.Fits compat .disjunction c := by
  have hfactor : factor.Within .disjunction :=
    .trans (.step rfl (.step rfl (.refl _))) sum_within_disjunction
  cases op with
  | not => exact absurd rfl hop
  | neg | pos =>
    obtain ⟨-, ⟨-, he⟩ | ⟨hr, -⟩⟩ := h
    · exact he.mono hfactor
    · cases hr

theorem numeric_undo {r : Expr} (he : e.Fits compat .disjunction c) (hc : c ≠ .condition)
    (hside : Numeric compat side) (h : undo name e side = .ok r) : Numeric compat r := by
  fun_induction undo name e side generalizing c with
  | case1 p side => exact Except.ok.inj h ▸ hside
  | case3 p e side ih =>
    have hinner : c.inner ≠ .condition := by cases c <;> simp_all [Context.inner]
    exact ih he hinner hside h
  | case4 => exact he.elim
  | case5 p e side ih => exact ih (he.of_sign (by decide)) hc hside h
  | case6 p e side ih =>
    obtain ⟨hbool, hfits⟩ := hside.parenthesized
    have hneg : Numeric compat (unary p .neg side.parenthesized) :=
      ⟨rfl, hbool, .inl ⟨.step rfl (.step rfl (.refl _)), hfits.mono (primary_within _)⟩⟩
    exact ih (he.of_sign (by decide)) hc hneg h
  | case8 p op l e side _ side' hundo ih =>
    obtain ⟨hl, he⟩ := he.numeric_operands (isArithmetic_of_undoRight hundo) hc
    exact ih (he.fits.mono sum_within_disjunction) (by decide)
      (numeric_undoRight hl hside hundo) h
  | case10 p op l e side _ side' hundo ih =>
    obtain ⟨hl, he⟩ := he.numeric_operands (isArithmetic_of_undoLeft hundo) hc
    exact ih (hl.fits.mono sum_within_disjunction) (by decide)
      (numeric_undoLeft he hside hundo) h
  | case12 p fn e side inverse _ ih => exact ih he.2 (by decide) (hside.function p inverse) h
  | case2 | case7 | case9 | case11 | case13 | case14 => cases h

theorem sides_of_ne (h : ∀ p l r, e ≠ binary p .equation l r) :
    e.sides = (e, literal e.offset 0 []) := by
  unfold sides
  split
  · exact absurd rfl (h _ _ _)
  · rfl

theorem numeric_isolate {r : Expr} (he : e.untagged.Fits compat .disjunction .top)
    (h : e.isolate name = .ok r) : Numeric compat r := by
  unfold isolate at h
  generalize e.untagged = u at he h
  split at h
  · cases h
  · cases h
  · by_cases hequation : ∃ p l r, u = binary p .equation l r
    · obtain ⟨p, a, b, rfl⟩ := hequation
      obtain ⟨-, -, ha, hb, hleft, hright⟩ := he
      change (if a.occurrence name = .absent then undo name b a else undo name a b) = .ok r at h
      split at h
      · exact numeric_undo (hright.mono sum_within_disjunction) (by decide)
          (.of_fits ha hleft (.refl _) (by decide)) h
      · exact numeric_undo (hleft.mono sum_within_disjunction) (by decide)
          (.of_fits hb hright (.refl _) (by decide)) h
    · simp only [sides_of_ne fun p a b hu => hequation ⟨p, a, b, hu⟩] at h
      split at h
      · cases h
      · exact numeric_undo he (by decide) (numeric_zero _) h

end Expr

end Keystroke
