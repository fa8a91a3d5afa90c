import Keystroke.Proofs.Algebra.RoundTrip
import Keystroke.Proofs.Decimal.Sign

set_option autoImplicit false

/-! # Sentences

The grammar with its contexts spelled out. Outside a condition an expression is a sum, and at the
top of an equation it is a sum or two sums with the defining `=` between them. The parser accepts
exactly the sentences, and each of them has one tree (`Expr.parse_eq_ok_iff_sentence`). -/

namespace Keystroke

open TokenStream

/-! ## Expressions outside a condition -/

theorem Rank.of_isArithmetic {r : Rank} (h : r.isArithmetic = true) :
    r.joinsConditions = false ∧ r.operand.isArithmetic = true := by
  cases r <;> simp_all [isArithmetic, joinsConditions, operand]

/-- Outside conditions, the context changes nothing for a sum and what it is made of. -/
theorem Derives.of_inner : ∀ {r : Rank} {c d : Context} {ts : List Token} {e : Expr},
    Derives r c ts e → r.isArithmetic = true → c.inner = d.inner → Derives r d ts e
  | _, _, _, _, _, .tighter hq h, hr, hd =>
    .tighter hq (h.of_inner (Rank.isArithmetic_of_within (.step hq (.refl _)) hr) hd)
  -- the context of an arithmetic chain is never asked for
  | _, _, _, _, _, .chain hop _ hl he hleft hright, hr, hd =>
    .chain hop (fun h => absurd ((Rank.of_isArithmetic hr).1.symm.trans h) Bool.false_ne_true) hl he
      (hleft.of_inner hr hd) (hright.of_inner (Rank.of_isArithmetic hr).2 hd)
  | _, _, _, _, _, .sign hsigns ht he h, hr, hd => .sign hsigns ht he (h.of_inner hr hd)
  | _, _, _, _, _, .group ho hz h, _, hd => .group ho hz (hd ▸ h)
  | _, _, _, _, _, .compare .., hr, _ | _, _, _, _, _, .negate .., hr, _ =>
    absurd hr Bool.false_ne_true
  | _, _, _, _, _, .literal hk hbits, _, _ => .literal hk hbits
  | _, _, _, _, _, .var ht, _, _ => .var ht
  | _, _, _, _, _, .element ht ho hz he h, _, _ => .element ht ho hz he h
  | _, _, _, _, _, .apply ht hfn h, _, _ => .apply ht hfn h
  | _, _, _, _, _, .extremum ht hform h, _, _ => .extremum ht hform h
  | _, _, _, _, _, .conditional ht hform h, _, _ => .conditional ht hform h
  | _, _, _, _, _, .fetch ht hform hn, _, _ => .fetch ht hform hn
  | _, _, _, _, _, .solving ht hform hn, _, _ => .solving ht hform hn
  | _, _, _, _, _, .assign ht hform hn hm h, _, _ => .assign ht hform hn hm h
  | _, _, _, _, _, .item ht hform hn hm h, _, _ => .item ht hform hn hm h
  | _, _, _, _, _, .sigma ht hform hn hm h, _, _ => .sigma ht hform hn hm h
  | _, _, _, _, _, .call ht hfree h, _, _ => .call ht hfree h
  | _, _, _, _, _, .callEmpty ht hfree, _, _ => .callEmpty ht hfree

theorem Derives.comparison_of_disjunction {c : Context} (hc : c ≠ .condition) {ts : List Token}
    {e : Expr} (h : Derives .disjunction c ts e) : Derives .comparison c ts e := by
  cases h with
  | chain _ hjoins => exact absurd (hjoins rfl) hc
  | sign hsigns => cases hsigns
  | tighter hq h =>
    cases hq
    cases h with
    | chain _ hjoins => exact absurd (hjoins rfl) hc
    | sign hsigns => cases hsigns
    | tighter hq h =>
      cases hq
      cases h with
      | chain hop => cases hop
      | sign hsigns => cases hsigns
      | negate => exact absurd rfl hc
      | tighter hq h =>
        cases hq
        exact h

/-! ## Equations -/

/-- The tokens are what an equation consists of behind its name: a sum, or two sums with `=`
    between them. -/
inductive EquationBody : List Token → Expr → Prop
  | sum {ts e} : Derives .sum .value ts e → EquationBody ts e
  | equation {t ts us l e} : t.kind = .equal → l.isBool = false → e.isBool = false →
      Derives .sum .value ts l → Derives .sum .value us e →
      EquationBody (ts ++ t :: us) (.binary t.offset .equation l e)

/-- The tokens are an equation, with or without a name and a colon in front. -/
inductive Sentence : List Token → Expr → Prop
  | plain {ts e} : EquationBody ts e → Sentence ts e
  | named {t m ts e} : t.Names → m.kind = .colon → EquationBody ts e →
      Sentence (t :: m :: ts) (.tagged t.offset t.text e)

theorem derives_top_iff {ts : List Token} {e : Expr} :
    Derives .disjunction .top ts e ↔ EquationBody ts e := by
  constructor
  · intro h
    cases h.comparison_of_disjunction (by decide) with
    | chain hop => cases hop
    | sign hsigns => cases hsigns
    | compare _ hsense hl he hleft hright =>
      simp only [Context.comparison?] at hsense
      split at hsense
      · next hequal =>
        cases hsense
        exact .equation hequal hl he (hleft.of_inner rfl rfl) (hright.of_inner rfl rfl)
      · cases hsense
    | tighter hq h =>
      cases hq
      exact .sum (h.of_inner rfl rfl)
  · intro h
    cases h with
    | sum h => exact (h.of_inner (d := .top) rfl rfl).lift Rank.sum_within_disjunction
    | @equation t _ _ _ _ hequal hl he hleft hright =>
      refine Derives.lift ?_ (.step rfl (.step rfl (.step rfl (.refl _))))
      have hsign : (t.kind, .eq) ∈ comparisonTokens := by simp [comparisonTokens, hequal]
      exact .compare hsign (by simp [Context.comparison?, hequal]) hl he (hleft.of_inner rfl rfl)
        (hright.of_inner rfl rfl)

theorem derivesEquation_iff {ts : List Token} {e : Expr} :
    DerivesEquation ts e ↔ Sentence ts e := by
  constructor
  · intro h
    cases h with
    | plain h => exact .plain (derives_top_iff.1 h)
    | tagged ht hm h => exact .named ht hm (derives_top_iff.1 h)
  · intro h
    cases h with
    | plain h => exact .plain (derives_top_iff.2 h)
    | named ht hm h => exact .tagged ht hm (derives_top_iff.2 h)

/-! ## Numbers -/

namespace Decimal

/-- What starts like a number is none of the words for infinity and "not a number". -/
theorem readWord?_of_startsNumber {b : UInt8} (rest : Bytes) (hb : startsNumber b.toNat = true) :
    readSign (b :: rest) = (false, b :: rest) ∧ readWord? (b :: rest) = none := by
  have hcode : b.toNat = 46 ∨ b.toNat = 44 ∨ 48 ≤ b.toNat ∧ b.toNat ≤ 57 := by
    simpa [startsNumber, or_assoc] using hb
  have hsign : readSign (b :: rest) = (false, b :: rest) := by
    have hminus : b ≠ ascii '-' := by
      rintro rfl
      exact absurd hb (by decide)
    have hplus : b ≠ ascii '+' := by
      rintro rfl
      exact absurd hb (by decide)
    simp [readSign, hminus, hplus]
  have hlow : (lowerAscii b).toNat < 97 := by
    simp only [lowerAscii, Bool.and_eq_true, decide_eq_true_eq, UInt8.le_iff_toNat_le]
    split_ifs with hletter
    · have : (65 : UInt8).toNat = 65 := rfl
      omega
    · omega
  have hword {c : UInt8} (hc : 97 ≤ (lowerAscii c).toNat) (word : Bytes) :
      sameLetters (b :: rest) (c :: word) = false := by
    simp only [sameLetters, List.map_cons, beq_eq_false_iff_ne, ne_eq, List.cons.injEq, not_and]
    intro h
    rw [h] at hlow
    omega
  refine ⟨hsign, ?_⟩
  unfold readWord?
  rw [hsign]
  show (if sameLetters (b :: rest) (105 :: _) || sameLetters (b :: rest) (105 :: _) then _ else
    if sameLetters (b :: rest) (110 :: _) then _ else none) = none
  rw [hword (by decide), hword (by decide), hword (by decide)]
  rfl

end Decimal

theorem NumberText.read_finite {w : Bytes} (hw : NumberText w) {bits : UInt64}
    (h : Decimal.read (Parse.plainNumber w) = .ok bits) :
    bits.toNat < Binary64.infinityBits := by
  obtain ⟨b, rest, rfl, -, hstart⟩ := hw.exists_start
  have hplain : startsNumber (if b = 44 then 46 else
      if b = 101 || b = exponentByte then 69 else b : UInt8).toNat = true := by
    split_ifs with hcomma hmark
    · rfl
    · rcases (by simpa using hmark : b = 101 ∨ b = exponentByte) with rfl | rfl <;>
        exact absurd hstart (by decide)
    · exact hstart
  obtain ⟨hsign, hword⟩ := Decimal.readWord?_of_startsNumber
    (rest.map fun b => if b = 44 then 46 else if b = 101 || b = exponentByte then 69 else b) hplain
  unfold Parse.plainNumber at h
  rw [List.map_cons, Decimal.read, hword] at h
  exact Decimal.readDigits_finite (by rw [hsign]) h

/-! ## The parser -/

namespace Expr

/-- The parser accepts exactly the sentences. A text that is all tokens is parsed to a tree if and
    only if its tokens are a sentence with that tree, no text has two trees, and the numbers that a
    sentence may hold are finite. -/
theorem parse_eq_ok_iff_sentence {compat : Bool} {text : Bytes} {ts : List Token} {n : Nat}
    (h : ofText compat text = ⟨ts, .ok n⟩) :
    (∀ e, parse compat text = .ok e ↔ Sentence ts e) ∧
      (∀ e e', Sentence ts e → Sentence ts e' → e = e') ∧
      ∀ t ∈ ts, t.kind = .number → ∀ bits, Decimal.read (Parse.plainNumber t.text) = .ok bits →
        bits.toNat < Binary64.infinityBits := by
  have hiff (e : Expr) : parse compat text = .ok e ↔ Sentence ts e := by
    rw [parse_eq_ok_iff, h, derivesEquation_iff]
    simp
  refine ⟨hiff, ?_, ?_⟩
  · intro e e' he he'
    exact Except.ok.inj (((hiff e).2 he).symm.trans ((hiff e').2 he'))
  · intro t ht hkind bits hbits
    have hmem : t ∈ (ofText compat text).tokens := by rw [h]; exact ht
    exact ((spelled_of_mem hmem).number hkind).read_finite hbits

/-- A named equation with signs on both sides of a power is a sentence; an equation in parentheses
    is none. -/
theorem parse_eq_ok_iff_sentence_signs :
    (∃ ts n e, ofText false (utf8 "Y:A=-X^-2") = ⟨ts, .ok n⟩ ∧
      parse false (utf8 "Y:A=-X^-2") = .ok e ∧ Sentence ts e) ∧
    ∃ ts n, ofText false (utf8 "(A=X)") = ⟨ts, .ok n⟩ ∧ ∀ e, ¬ Sentence ts e := by
  constructor
  · obtain ⟨e, he⟩ : ∃ e, parse false (utf8 "Y:A=-X^-2") = .ok e := ⟨_, rfl⟩
    exact ⟨_, 9, e, rfl, he, ((parse_eq_ok_iff_sentence rfl).1 e).1 he⟩
  · obtain ⟨cause, hcause⟩ : ∃ cause, parse false (utf8 "(A=X)") = .error cause := ⟨_, rfl⟩
    obtain ⟨ts, hts⟩ : ∃ ts, ofText false (utf8 "(A=X)") = ⟨ts, .ok 5⟩ := ⟨_, rfl⟩
    refine ⟨ts, 5, hts, ?_⟩
    intro e he
    have hparse := ((parse_eq_ok_iff_sentence hts).1 e).2 he
    cases hparse

end Expr

end Keystroke
