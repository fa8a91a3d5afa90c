import Keystroke.Proofs.Algebra.Completeness
import Keystroke.Proofs.Algebra.Shape
import Mathlib.Data.List.Forall2

set_option autoImplicit false

/-! # Printing and reading back

The printed text of a tree that has the shape of an expression is read as tokens from which the
grammar derives the same tree again, apart from the offsets of its nodes and the spelling of its
numbers. With the parser accepting what the grammar derives, printing and parsing are inverse. -/

namespace Keystroke

variable {es' : List Expr} {us : List Token} {k : TokenKind} {args rest : Bytes} {offset : Nat}
  {t : Token}

open TokenStream Parse List Keystroke.Expr

variable {e f : Expr} {ts : List Token} {w name text : Bytes} {b : UInt8} {op : BinaryOp}
  {d : Context} {compat : Bool}

/-! ## Trees without positions and spellings -/

namespace Expr

mutual

/-- The tree with all offsets zero and no spelling of numbers. -/
def bare : Expr → Expr
  | literal _ value _ => literal 0 value []
  | var _ name => var 0 name
  | unary _ op e => unary 0 op e.bare
  | group _ e => group 0 e.bare
  | binary _ op l r => binary 0 op l.bare r.bare
  | apply _ fn e => apply 0 fn e.bare
  | extremum _ greatest es => extremum 0 greatest (bareAll es)
  | call _ name es => call 0 name (bareAll es)
  | conditional _ c y n => conditional 0 c.bare y.bare n.bare
  | sigma _ index a b s e => sigma 0 index a.bare b.bare s.bare e.bare
  | fetch _ name => fetch 0 name
  | assign _ name e => assign 0 name e.bare
  | solving _ name => solving 0 name
  | item _ name e bracket => item 0 name e.bare bracket
  | tagged _ name e => tagged 0 name e.bare

/-- Several trees with all offsets zero and no spelling of numbers. -/
def bareAll : List Expr → List Expr
  | [] => []
  | e :: es => e.bare :: bareAll es

end

@[simp] theorem isBool_bare : ∀ e : Expr, e.bare.isBool = e.isBool
  | group _ e | tagged _ _ e => by simp only [bare, isBool, isBool_bare e]
  | literal _ _ _ | var _ _ | unary _ _ _ | binary _ _ _ _ | apply _ _ _ | extremum _ _ _
  | call _ _ _ | conditional _ _ _ _ | sigma _ _ _ _ _ _ | fetch _ _ | assign _ _ _ | solving _ _
  | item _ _ _ _ => rfl

theorem forall₂_of_bareAll : ∀ {es es' : List Expr}, bareAll es' = bareAll es →
    List.Forall₂ (fun e' e => e'.bare = e.bare) es' es
  | [], [], _ => .nil
  | [], _ :: _, h | _ :: _, [], h => by simp [bareAll] at h
  | _ :: _, _ :: _, h => by
    simp only [bareAll, cons.injEq] at h
    exact .cons h.1 (forall₂_of_bareAll h.2)

theorem isBool_of_bare {e' : Expr} (h : e'.bare = e.bare) : e'.isBool = e.isBool := by
  rw [← isBool_bare e', h, isBool_bare]

end Expr

/-! ## Scanning pieces of text -/

/-- Read from the offset on, the text gives these tokens in front of what follows. -/
def Scans (compat : Bool) (offset : Nat) (text : Bytes) (ts : List Token) (rest : Bytes) : Prop :=
  ofCursor compat ⟨offset, text ++ rest⟩ =
    prepend ts (ofCursor compat ⟨offset + text.length, rest⟩)

section Scans

variable {offset : Nat} {rest : Bytes}

theorem Scans.append {a b : Bytes} (ha : Scans compat offset a ts (b ++ rest))
    (hb : Scans compat (offset + a.length) b us rest) :
    Scans compat offset (a ++ b) (ts ++ us) rest := by
  unfold Scans at *
  rw [append_assoc, ha, hb, prepend_prepend, length_append, Nat.add_assoc]

theorem scans_space : Scans compat offset [32] [] rest := ofCursor_space offset rest

theorem scans_name (hw : NameText compat w) (hrest : Breaks compat rest) :
    Scans compat offset w [⟨.ident, w, offset⟩] rest :=
  ofCursor_next (Cursor.next_name hw hrest offset) (by simp)

theorem scans_number (hw : NumberText w) (hrest : Breaks compat rest) :
    Scans compat offset w [⟨.number, w, offset⟩] rest :=
  ofCursor_next (Cursor.next_number hw hrest offset) (by simp)

theorem scans_symbol {g : Glyph} (hb : b ≠ 32) (hg : firstGlyph? (b :: (w ++ rest)) = some g)
    (hsymbol : symbol? compat g (w ++ rest).head? = some (k, w.length + 1)) :
    Scans compat offset (b :: w) [⟨k, b :: w, offset⟩] rest := by
  have hk : k ≠ .endOfText := (isSymbol hsymbol).kind.1
  have hbehind : (b :: (w ++ rest))[1]? = (w ++ rest).head? := by
    simp [head?_eq_getElem?]
  have hnext := @Cursor.next_symbol compat g (w.length + 1) ⟨offset, b :: (w ++ rest)⟩ k
    (by simpa using hb) hg (by rw [hbehind]; exact hsymbol)
  have htake : (b :: (w ++ rest)).take (w.length + 1) = b :: w := by simp
  have hdrop : (b :: (w ++ rest)).drop (w.length + 1) = rest := by simp
  simp only [Cursor.advance, htake, hdrop] at hnext
  exact ofCursor_next hnext hk

theorem breaks_of_byte (hb : b < 0x80) (hends : endsName compat b.toNat = true) :
    Breaks compat (b :: rest) := by
  intro g hg
  rw [firstGlyph?_ascii hb] at hg
  exact Option.some.inj hg ▸ hends

theorem scans_byte (hb : b < 0x80) (hspace : b ≠ 32)
    (hsymbol : ∀ next, symbol? compat ⟨b.toNat, 1⟩ next = some (k, 1)) :
    Scans compat offset [b] [⟨k, [b], offset⟩] rest :=
  scans_symbol hspace (firstGlyph?_ascii hb rest) (hsymbol _)

theorem scans_connective (k : Keyword) :
    Scans compat offset (32 :: (k.text ++ [32])) [⟨.ident, k.text, offset + 1⟩] rest := by
  have htext : NameText compat k.text := by
    cases k <;> cases compat <;> exact ⟨by decide, by decide⟩
  have hbreaks : Breaks compat ([32] ++ rest) := breaks_of_byte (by decide)
    (by cases compat <;> rfl)
  have hword : Scans compat (offset + 1) (k.text ++ [32]) ([⟨.ident, k.text, offset + 1⟩] ++ [])
      rest := (scans_name htext hbreaks).append scans_space
  have hall : Scans compat offset ([32] ++ (k.text ++ [32]))
      ([] ++ ([⟨.ident, k.text, offset + 1⟩] ++ [])) rest := scans_space.append hword
  exact hall

theorem breaks_operator (op : BinaryOp) : Breaks compat (utf8 (op.symbol compat) ++ rest) := by
  cases op <;> cases compat <;>
    first
    | exact breaks_of_byte (by decide) rfl
    | (intro g hg; cases hg; rfl)

theorem scans_operator (hop : op.rank ≠ .comparison) :
    ∃ t, Scans compat offset (utf8 (op.symbol compat)) [t] rest ∧
      op.rank.operator? t = some op := by
  cases op with
  | add => exact ⟨_, scans_byte (by decide) (by decide) fun _ => rfl, rfl⟩
  | sub => exact ⟨_, scans_byte (by decide) (by decide) fun _ => rfl, rfl⟩
  | pow => exact ⟨_, scans_byte (by decide) (by decide) fun _ => rfl, rfl⟩
  | mul =>
    cases compat with
    | false => exact ⟨_, scans_byte (by decide) (by decide) fun _ => rfl, rfl⟩
    | true => exact ⟨_, scans_symbol (by decide) rfl rfl, rfl⟩
  | div =>
    cases compat with
    | false => exact ⟨_, scans_byte (by decide) (by decide) fun _ => rfl, rfl⟩
    | true => exact ⟨_, scans_symbol (by decide) rfl rfl, rfl⟩
  | and => exact ⟨_, scans_connective .and, rfl⟩
  | or => exact ⟨_, scans_connective .or, rfl⟩
  | xor => exact ⟨_, scans_connective .xor, rfl⟩
  | _ => exact absurd rfl hop

/-- A comparison sign is read as itself, if what follows does not make it another one. -/
theorem scans_comparison (hop : op.rank = .comparison) (hequal : rest.head? ≠ some 61)
    (hgreater : rest.head? ≠ some 62) {c : Context} (hc : ∀ k, op.context? = some k → c = k) :
    ∃ t cmp, Scans compat offset (utf8 (op.symbol compat)) [t] rest ∧ comparison? t = some cmp ∧
      c.comparison? t cmp = some op := by
  have hless : symbol? compat ⟨60, 1⟩ rest.head? = some (.less, 1) := by
    simp [symbol?, hequal, hgreater]
  have hmore : symbol? compat ⟨62, 1⟩ rest.head? = some (.greater, 1) := by
    simp [symbol?, hequal]
  cases op with
  | equation =>
    obtain rfl := hc .top rfl
    exact ⟨_, .eq, scans_byte (by decide) (by decide) fun _ => rfl, rfl, rfl⟩
  | eq =>
    obtain rfl := hc .condition rfl
    exact ⟨_, .eq, scans_byte (by decide) (by decide) fun _ => rfl, rfl, rfl⟩
  | ne =>
    obtain rfl := hc .condition rfl
    exact ⟨_, .ne, scans_symbol (by decide) rfl rfl, rfl, rfl⟩
  | lt =>
    obtain rfl := hc .condition rfl
    exact ⟨_, .lt, scans_symbol (by decide) rfl hless, rfl, rfl⟩
  | le =>
    obtain rfl := hc .condition rfl
    exact ⟨_, .le, scans_symbol (by decide) rfl rfl, rfl, rfl⟩
  | gt =>
    obtain rfl := hc .condition rfl
    exact ⟨_, .gt, scans_symbol (by decide) rfl hmore, rfl, rfl⟩
  | ge =>
    obtain rfl := hc .condition rfl
    exact ⟨_, .ge, scans_symbol (by decide) rfl rfl, rfl, rfl⟩
  | _ => simp [BinaryOp.rank] at hop

/-! ## Names and calls -/

theorem Writable.names (h : Writable compat name) : Token.Names ⟨.ident, name, offset⟩ :=
  ⟨by simp [Token.isName, h.notKeyword], h.short⟩

theorem writable_function (fn : Function) : Writable compat (utf8 fn.name) := by
  cases fn <;> cases compat <;> exact ⟨⟨by decide, by decide⟩, by decide, by decide⟩

theorem writable_special (form : SpecialForm) : Writable compat (utf8 form.name) := by
  cases form <;> cases compat <;> exact ⟨⟨by decide, by decide⟩, by decide, by decide⟩

theorem breaks_open : Breaks compat (40 :: rest) :=
  breaks_of_byte (by decide) (by cases compat <;> rfl)

theorem breaks_close : Breaks compat (41 :: rest) :=
  breaks_of_byte (by decide) (by cases compat <;> rfl)

theorem breaks_colon : Breaks compat (58 :: rest) :=
  breaks_of_byte (by decide) (by cases compat <;> rfl)

theorem scans_open : Scans compat offset [40] [⟨.leftParen, [40], offset⟩] rest :=
  scans_byte (by decide) (by decide) fun _ => rfl

theorem scans_close : Scans compat offset [41] [⟨.rightParen, [41], offset⟩] rest :=
  scans_byte (by decide) (by decide) fun _ => rfl

theorem scans_colon : Scans compat offset [58] [⟨.colon, [58], offset⟩] rest :=
  scans_byte (by decide) (by decide) fun _ => rfl

theorem scans_call (hname : Writable compat name)
    (h : Scans compat (offset + name.length + 1) args ts (41 :: rest)) :
    ∃ t o z, t.Calls o z ∧ t.text = name ∧
      Scans compat offset (name ++ (utf8 "(" ++ (args ++ utf8 ")"))) (t :: o :: (ts ++ [z]))
        rest := by
  refine ⟨⟨.ident, name, offset⟩, ⟨.leftParen, [40], offset + name.length⟩,
    ⟨.rightParen, [41], offset + name.length + 1 + args.length⟩, ⟨hname.names, rfl, rfl⟩, rfl, ?_⟩
  have hargs : Scans compat (offset + name.length + 1) (args ++ [41]) (ts ++ [_]) rest :=
    h.append scans_close
  have hopen : Scans compat (offset + name.length) ([40] ++ (args ++ [41])) _ rest :=
    scans_open.append hargs
  exact (scans_name hname.text breaks_open).append hopen

theorem scans_bound (hname : Writable compat name)
    (h : Scans compat (offset + name.length + 1) args ts rest) :
    ∃ n m, n.Names ∧ n.text = name ∧ m.kind = .colon ∧
      Scans compat offset (name ++ utf8 ":" ++ args) (n :: m :: ts) rest := by
  refine ⟨⟨.ident, name, offset⟩, ⟨.colon, [58], offset + name.length⟩, hname.names, rfl, rfl, ?_⟩
  have hcolon : Scans compat (offset + name.length) ([58] ++ args) _ rest := scans_colon.append h
  rw [append_assoc]
  exact (scans_name hname.text breaks_colon).append hcolon

end Scans

/-! ## Reading back -/

/-- The printed tree is read back as an expression of the rank, apart from offsets and spelling. -/
def Rereads (compat : Bool) (r : Rank) (c : Context) (e : Expr) : Prop :=
  ∀ offset rest, Breaks compat rest → ∃ ts e', Scans compat offset (e.print compat) ts rest ∧
    Derives r c ts e' ∧ e'.bare = e.bare

/-- The printed trees are read back as arguments, the first one in the context. -/
def RereadsArguments (compat : Bool) (c : Context) (es : List Expr) : Prop :=
  ∀ offset rest, Breaks compat rest → ∃ ts es',
    Scans compat offset (printAll compat es) ts rest ∧ Arguments c ts es' ∧
    bareAll es' = bareAll es

section Rereads

variable {r q : Rank} {c : Context} {l : Expr} {es : List Expr} {p : Nat}

theorem Derives.lift (h : Derives q c ts e) (hr : q.Within r) : Derives r c ts e := by
  induction hr with
  | refl => exact h
  | step hp _ ih => exact .tighter hp ih

theorem Rereads.mono (h : Rereads compat q c e) (hr : q.Within r) : Rereads compat r c e := by
  intro offset rest hrest
  obtain ⟨ts, e', hscan, hderives, hbare⟩ := h offset rest hrest
  exact ⟨ts, e', hscan, hderives.lift hr, hbare⟩

theorem Rereads.any (h : Rereads compat .primary c e) (r : Rank) : Rereads compat r c e :=
  h.mono (Rank.primary_within r)

theorem rereadsArguments_last (hbool : e.isBool = (c == .condition))
    (h : Rereads compat .disjunction c e) : RereadsArguments compat c [e] := by
  intro offset rest hrest
  obtain ⟨ts, e', hscan, hderives, hbare⟩ := h offset rest hrest
  exact ⟨ts, [e'], hscan, .last ((isBool_of_bare hbare).trans hbool) hderives,
    by simp [bareAll, hbare]⟩

theorem rereadsArguments_more (hbool : e.isBool = (c == .condition))
    (h : Rereads compat .disjunction c e) (hmore : RereadsArguments compat .value (f :: es)) :
    RereadsArguments compat c (e :: f :: es) := by
  intro offset rest hrest
  obtain ⟨ts, e', hscan, hderives, hbare⟩ :=
    h offset ([58] ++ (printAll compat (f :: es) ++ rest)) breaks_colon
  obtain ⟨us, es', hscan', hargs, hbare'⟩ := hmore (offset + (e.print compat).length + 1) rest hrest
  have hcolon : Scans compat (offset + (e.print compat).length)
      ([58] ++ printAll compat (f :: es)) _ rest := scans_colon.append hscan'
  have hprint : printAll compat (e :: f :: es) =
      e.print compat ++ ([58] ++ printAll compat (f :: es)) :=
    append_assoc (e.print compat) [58] (printAll compat (f :: es))
  refine ⟨ts ++ ⟨.colon, [58], offset + (e.print compat).length⟩ :: us, e' :: es', ?_,
    .more ((isBool_of_bare hbare).trans hbool) rfl hderives hargs,
    by simp [bareAll, hbare, hbare']⟩
  rw [hprint]
  exact Scans.append (by simpa using hscan) hcolon

/-- What starts with a token of an expression does not start with `=` or `>`. -/
theorem head_of_scans (h : Scans compat offset text (t :: ts) rest) (ht : t.kind.starts = true) :
    (text ++ rest).head? ≠ some 61 ∧ (text ++ rest).head? ≠ some 62 := by
  have hfirst {k : TokenKind} {n : Nat} {b : UInt8} (hb : b < 0x80) (hspace : b ≠ 32)
      (hhead : (text ++ rest).head? = some b)
      (hsymbol : symbol? compat ⟨b.toNat, 1⟩ (text ++ rest)[1]? = some (k, n)) : k = t.kind := by
    have hg : firstGlyph? (text ++ rest) = some ⟨b.toNat, 1⟩ := by
      obtain ⟨v, hv⟩ := head?_eq_some_iff.1 hhead
      rw [hv, firstGlyph?_ascii hb]
    have hnext := @Cursor.next_symbol compat _ n ⟨offset, text ++ rest⟩ k
      (by simp [hhead, hspace]) hg hsymbol
    have hk : k ≠ .endOfText := (isSymbol hsymbol).kind.1
    have hstream := ofCursor_next hnext hk
    rw [h] at hstream
    have htokens := congrArg TokenStream.tokens hstream
    simp only [tokens_prepend, cons_append, nil_append, cons.injEq] at htokens
    rw [htokens.1]
  constructor
  · intro hhead
    have hk := hfirst (by decide) (by decide) hhead rfl
    simp [← hk, TokenKind.starts] at ht
  · intro hhead
    by_cases hequal : (text ++ rest)[1]? = some 61
    · have hk := hfirst (k := .greaterEqual) (n := 2) (by decide) (by decide) hhead
        (by simp [symbol?, hequal])
      simp [← hk, TokenKind.starts] at ht
    · have hk := hfirst (k := .greater) (n := 1) (by decide) (by decide) hhead
        (by simp [symbol?, hequal])
      simp [← hk, TokenKind.starts] at ht

theorem rereads_literal {value : Float}
    (h : Denotes (if text.isEmpty then canonicalNumber value.toBits else text) value) :
    Rereads compat .primary c (.literal p value text) := by
  intro offset rest hrest
  obtain ⟨htext, bits, hbits, rfl⟩ := h
  exact ⟨_, _, scans_number htext hrest, .literal rfl hbits, rfl⟩

theorem rereads_var (h : Writable compat name) : Rereads compat .primary c (.var p name) := by
  intro offset rest hrest
  exact ⟨_, _, scans_name h.text hrest, .var h.names, rfl⟩

theorem rereads_group (h : Rereads compat .disjunction c.inner e) :
    Rereads compat .primary c (.group p e) := by
  intro offset rest hrest
  obtain ⟨ts, e', hscan, hderives, hbare⟩ := h (offset + 1) (41 :: rest) breaks_close
  have hinner : Scans compat (offset + 1) (e.print compat ++ [41]) (ts ++ [_]) rest :=
    hscan.append scans_close
  exact ⟨_, _, scans_open.append hinner, .group rfl rfl hderives, by simp [bare, hbare]⟩

theorem rereads_sign {op : UnaryOp} (hop : op ≠ .not) (hr : r.takesSigns = true)
    (hbool : e.isBool = false) (h : Rereads compat r c e) :
    Rereads compat r c (.unary p op e) := by
  intro offset rest hrest
  obtain ⟨ts, e', hscan, hderives, hbare⟩ := h (offset + 1) rest hrest
  have hbool' := (isBool_of_bare hbare).trans hbool
  cases op with
  | not => exact absurd rfl hop
  | neg | pos =>
    exact ⟨_, _, (scans_byte (by decide) (by decide) fun _ => rfl).append hscan,
      .sign hr (sign?_eq_some_iff.1 rfl) hbool' hderives, by simp [bare, hbare]⟩

theorem rereads_negation (hbool : e.isBool = true) (h : Rereads compat .comparison .condition e) :
    Rereads compat .negation .condition (.unary p .not e) := by
  intro offset rest hrest
  obtain ⟨ts, e', hscan, hderives, hbare⟩ := h (offset + 4) rest hrest
  have htext : NameText compat Keyword.not.text := by
    cases compat <;> exact ⟨by decide, by decide⟩
  have hword : Scans compat offset (Keyword.not.text ++ [32]) _ (e.print compat ++ rest) :=
    (scans_name htext (breaks_of_byte (by decide) (by cases compat <;> rfl))).append scans_space
  exact ⟨_, _, hword.append hscan, .negate ⟨rfl, rfl⟩ ((isBool_of_bare hbare).trans hbool) hderives,
    by simp [bare, hbare]⟩

theorem scans_binary (hleft : Scans compat offset (l.print compat) ts
      (utf8 (op.symbol compat) ++ (e.print compat ++ rest)))
    (hop : Scans compat (offset + (l.print compat).length) (utf8 (op.symbol compat)) [t]
      (e.print compat ++ rest))
    (hright : Scans compat (offset + (l.print compat).length + (utf8 (op.symbol compat)).length)
      (e.print compat) us rest) :
    Scans compat offset ((binary p op l e).print compat) (ts ++ t :: us) rest := by
  have htail : Scans compat (offset + (l.print compat).length)
      (utf8 (op.symbol compat) ++ e.print compat) ([t] ++ us) rest := hop.append hright
  exact Scans.append (by rw [append_assoc]; exact hleft) htail

theorem rereads_binary (hc : ∀ k, op.context? = some k → c = k) (hl : l.isBool = op.isLogical)
    (he : e.isBool = op.isLogical) (hleft : Rereads compat op.leftRank c l)
    (hright : Rereads compat op.rightRank c e) : Rereads compat op.rank c (.binary p op l e) := by
  intro offset rest hrest
  have hcompares : op.rank = .comparison → op.isLogical = false := by
    cases op <;> simp [BinaryOp.rank, BinaryOp.isLogical]
  have hlogical : op.isLogical = true → op.context? = some .condition := by
    cases op <;> simp [BinaryOp.isLogical, BinaryOp.context?]
  obtain ⟨ts, l', hscan, hderives, hbare⟩ := hleft offset _ (breaks_operator op)
  obtain ⟨us, e', hscan', hderives', hbare'⟩ := hright
    (offset + (l.print compat).length + (utf8 (op.symbol compat)).length) rest hrest
  have hl' := (isBool_of_bare hbare).trans hl
  have he' := (isBool_of_bare hbare').trans he
  by_cases hop : op.rank = .comparison
  · simp only [BinaryOp.leftRank, BinaryOp.rightRank, hop, if_true] at hderives hderives'
    obtain ⟨t', us', rfl, hfirst, -⟩ := hderives'.first_token
    obtain ⟨hequal, hgreater⟩ := head_of_scans hscan' hfirst.starts
    obtain ⟨t, cmp, ht, hcmp, hsense⟩ := @scans_comparison op compat
      (offset + (l.print compat).length) _ hop hequal hgreater c hc
    rw [hop]
    exact ⟨ts ++ t :: t' :: us', _, scans_binary hscan ht hscan',
      .compare (comparison?_eq_some_iff.1 hcmp) hsense (hl'.trans (hcompares hop))
        (he'.trans (hcompares hop)) hderives hderives',
      by simp [bare, hbare, hbare']⟩
  · obtain ⟨t, ht, hoperator⟩ := @scans_operator op compat
      (offset + (l.print compat).length) (e.print compat ++ rest) hop
    obtain ⟨-, hlrank, hrrank, hjoins, -⟩ := Rank.rank_of_operator hoperator
    rw [hlrank] at hderives
    rw [hrrank] at hderives'
    rw [hjoins] at hlogical hl' he'
    exact ⟨ts ++ t :: us, _, scans_binary hscan ht hscan', .chain hoperator
      (fun h => hc _ (hlogical h)) hl' he' hderives hderives', by simp [bare, hbare, hbare']⟩

theorem rereads_element (hname : Writable compat name) (hcompat : compat = false)
    (hbool : e.isBool = false) (h : Rereads compat .disjunction .value e) :
    Rereads compat .primary c (.item p name e true) := by
  subst hcompat
  intro offset rest hrest
  obtain ⟨ts, e', hscan, hderives, hbare⟩ := h (offset + name.length + 1) (93 :: rest)
    (breaks_of_byte (by decide) rfl)
  have hclose : Scans false (offset + name.length + 1 + (e.print false).length) [93] _ rest :=
    scans_byte (by decide) (by decide) fun _ => rfl
  have hopen : Scans false (offset + name.length) [91] _ (e.print false ++ [93] ++ rest) :=
    scans_byte (by decide) (by decide) fun _ => rfl
  have hindex : Scans false (offset + name.length) ([91] ++ (e.print false ++ [93])) _ rest :=
    hopen.append (hscan.append hclose)
  have hall := (scans_name hname.text (breaks_of_byte (by decide) rfl)).append hindex
  have hprint : (item p name e true).print false =
      name ++ ([91] ++ (e.print false ++ [93])) := by
    show name ++ [91] ++ e.print false ++ [93] = _
    simp
  exact ⟨_, _, hprint ▸ hall, .element hname.names rfl rfl
    ((isBool_of_bare hbare).trans hbool) hderives, by simp [bare, hbare]⟩

theorem rereads_call (hname : Writable compat name) (h : RereadsArguments compat c es)
    (hprint : f.print compat = name ++ (utf8 "(" ++ (printAll compat es ++ utf8 ")")))
    (hderives : ∀ {t o z : Token} {ts : List Token} {es' : List Expr}, t.Calls o z →
      t.text = name → Arguments c ts es' → bareAll es' = bareAll es →
      ∃ f', Derives .primary d (t :: o :: (ts ++ [z])) f' ∧ f'.bare = f.bare) :
    Rereads compat .primary d f := by
  intro offset rest hrest
  obtain ⟨ts, es', hscan, hargs, hbare⟩ := h (offset + name.length + 1) (41 :: rest) breaks_close
  obtain ⟨t, o, z, hcalls, htext, hall⟩ := scans_call hname hscan
  obtain ⟨f', hf', hbare'⟩ := hderives hcalls htext hargs hbare
  exact ⟨_, f', hprint ▸ hall, hf', hbare'⟩

theorem rereads_bound_call (form : SpecialForm) (hname : Writable compat name)
    (h : RereadsArguments compat .value es) (hprint : f.print compat = utf8 form.name ++
      (utf8 "(" ++ (name ++ utf8 ":" ++ printAll compat es ++ utf8 ")")))
    (hderives : ∀ {t o z n m : Token} {ts : List Token} {es' : List Expr}, t.Calls o z →
      t.text = utf8 form.name → n.Names → n.text = name → m.kind = .colon →
      Arguments .value ts es' → bareAll es' = bareAll es →
      ∃ f', Derives .primary d (t :: o :: n :: m :: (ts ++ [z])) f' ∧ f'.bare = f.bare) :
    Rereads compat .primary d f := by
  intro offset rest hrest
  obtain ⟨ts, es', hscan, hargs, hbare⟩ :=
    h (offset + (utf8 form.name).length + 1 + name.length + 1) (41 :: rest) breaks_close
  obtain ⟨n, m, hn, hntext, hm, hbound⟩ := scans_bound hname hscan
  obtain ⟨t, o, z, hcalls, htext, hall⟩ := scans_call (writable_special form) hbound
  obtain ⟨f', hf', hbare'⟩ := hderives hcalls htext hn hntext hm hargs hbare
  exact ⟨_, f', hprint ▸ hall, hf', hbare'⟩

theorem rereads_name_call (form : SpecialForm) (hname : Writable compat name)
    (hprint : f.print compat = utf8 form.name ++ (utf8 "(" ++ (name ++ utf8 ")")))
    (hderives : ∀ {t o z n : Token}, t.Calls o z → t.text = utf8 form.name →
      n.Names → n.text = name → ∃ f', Derives .primary d [t, o, n, z] f' ∧ f'.bare = f.bare) :
    Rereads compat .primary d f := by
  intro offset rest hrest
  obtain ⟨t, o, z, hcalls, htext, hall⟩ := scans_call (writable_special form)
    (scans_name hname.text (@breaks_close compat rest))
  obtain ⟨f', hf', hbare⟩ := hderives hcalls htext hname.names rfl
  exact ⟨_, f', hprint ▸ hall, hf', hbare⟩

theorem rereads_empty_call (hname : Writable compat name) (hfree : name ∉ reserved) :
    Rereads compat .primary c (.call p name []) := by
  intro offset rest hrest
  have hnone : Scans compat (offset + name.length + 1) [] [] (41 :: rest) := rfl
  obtain ⟨t, o, z, hcalls, rfl, hall⟩ := scans_call hname hnone
  exact ⟨_, _, hall, .callEmpty hcalls hfree, rfl⟩

theorem rereads_extremum {greatest : Bool} (h : RereadsArguments compat .value es) :
    Rereads compat .primary c (.extremum p greatest es) := by
  cases greatest
  · exact rereads_call (writable_special .min) h rfl fun hcalls htext hargs hbare =>
      ⟨.extremum _ false _, .extremum hcalls htext hargs,
        by simp [bare, hbare]⟩
  · exact rereads_call (writable_special .max) h rfl fun hcalls htext hargs hbare =>
      ⟨.extremum _ true _, .extremum hcalls htext hargs,
        by simp [bare, hbare]⟩

theorem rereads_conditional {y n : Expr} (h : RereadsArguments compat .condition [e, y, n]) :
    Rereads compat .primary c (.conditional p e y n) := by
  refine rereads_call (writable_special .choice) h ?_ fun hcalls htext hargs hbare => ?_
  · show utf8 "IF" ++ (utf8 "(" ++ (e.print compat ++ utf8 ":" ++ y.print compat ++ utf8 ":" ++
      n.print compat ++ utf8 ")")) = utf8 "IF" ++ (utf8 "(" ++ (e.print compat ++ utf8 ":" ++
      (y.print compat ++ utf8 ":" ++ n.print compat) ++ utf8 ")"))
    simp only [append_assoc]
  · obtain _ | ⟨he, _ | ⟨hy, _ | ⟨hn, ⟨⟩⟩⟩⟩ := forall₂_of_bareAll hbare
    exact ⟨_, .conditional hcalls htext hargs, by simp [bare, he, hy, hn]⟩

theorem rereads_sigma {index : Bytes} {a b s : Expr} (hindex : Writable compat index)
    (h : RereadsArguments compat .value [a, b, s, e]) :
    Rereads compat .primary c (.sigma p index a b s e) := by
  refine rereads_bound_call .sigma hindex h ?_ fun hcalls hform hn hntext hm hargs hbare => ?_
  · show utf8 "SIGMA" ++ (utf8 "(" ++ (index ++ utf8 ":" ++ a.print compat ++ utf8 ":" ++
      b.print compat ++ utf8 ":" ++ s.print compat ++ utf8 ":" ++ e.print compat ++ utf8 ")")) =
      utf8 "SIGMA" ++ (utf8 "(" ++ (index ++ utf8 ":" ++ (a.print compat ++ utf8 ":" ++
      (b.print compat ++ utf8 ":" ++ (s.print compat ++ utf8 ":" ++ e.print compat))) ++
      utf8 ")"))
    simp only [append_assoc]
  · obtain _ | ⟨ha, _ | ⟨hb, _ | ⟨hs, _ | ⟨he, ⟨⟩⟩⟩⟩⟩ := forall₂_of_bareAll hbare
    exact ⟨_, .sigma hcalls hform hn hm hargs, by simp [bare, ha, hb, hs, he, hntext]⟩

end Rereads

/-! ## Trees of the right shape are read back -/

mutual

theorem Expr.Fits.rereads {compat : Bool} : ∀ {r : Rank} {c : Context} {e : Expr},
    e.Fits compat r c → Rereads compat r c e
  | _, _, .literal _ _ _, h => (rereads_literal h).any _
  | _, _, .var _ _, h => (rereads_var h).any _
  | _, _, .unary _ .not _, ⟨hr, hc, hbool, h⟩ => by
    subst hc
    exact (rereads_negation hbool h.rereads).mono hr
  | _, _, .unary _ .neg _, ⟨hbool, h⟩ | _, _, .unary _ .pos _, ⟨hbool, h⟩ => by
    rcases h with ⟨hr, h⟩ | ⟨rfl, h⟩
    · exact (rereads_sign (by decide) rfl hbool h.rereads).mono hr
    · exact rereads_sign (by decide) rfl hbool h.rereads
  | _, c, .group _ e, h =>
    (rereads_group (Expr.Fits.rereads (r := .disjunction) (c := c.inner) (e := e) h)).any _
  | _, _, .binary _ op _ _, ⟨hr, hc, hl, he, hleft, hright⟩ =>
    (rereads_binary hc hl he hleft.rereads hright.rereads).mono hr
  | _, _, .apply _ fn e, ⟨hbool, h⟩ => by
    refine (rereads_call (writable_function fn) (rereadsArguments_last hbool h.rereads) rfl
      fun hcalls htext hargs hbare => ?_).any _
    obtain _ | ⟨he', ⟨⟩⟩ := forall₂_of_bareAll hbare
    exact ⟨_, .apply hcalls htext hargs, by simp [bare, he']⟩
  | _, _, .extremum _ _ es, ⟨hes, h⟩ =>
    (rereads_extremum (Expr.FitsAll.rereads h hes)).any _
  | _, _, .call _ _ [], ⟨hname, hfree, _⟩ => (rereads_empty_call hname hfree).any _
  | _, _, .call _ _ (_ :: _), ⟨hname, hfree, h⟩ => by
    refine (rereads_call hname (Expr.FitsAll.rereads h (cons_ne_nil _ _)) rfl
      fun hcalls htext hargs hbare => ?_).any _
    subst htext
    exact ⟨_, .call hcalls hfree hargs, by simp [bare, hbare]⟩
  | _, _, .conditional _ _ _ _, ⟨⟨hebool, he⟩, ⟨hybool, hy⟩, ⟨hnbool, hn⟩⟩ =>
    (rereads_conditional (rereadsArguments_more hebool he.rereads
      (rereadsArguments_more hybool hy.rereads
        (rereadsArguments_last hnbool hn.rereads)))).any _
  | _, _, .sigma _ _ _ _ _ _,
      ⟨hindex, ⟨habool, ha⟩, ⟨hbbool, hb⟩, ⟨hsbool, hs⟩, ⟨hebool, he⟩⟩ =>
    (rereads_sigma hindex (rereadsArguments_more habool ha.rereads
      (rereadsArguments_more hbbool hb.rereads (rereadsArguments_more hsbool hs.rereads
        (rereadsArguments_last hebool he.rereads))))).any _
  | _, _, .fetch _ name, h =>
    (rereads_name_call .fetch h rfl fun hcalls hform hn hname =>
      ⟨_, .fetch hcalls hform hn, by simp [bare, hname]⟩).any _
  | _, _, .solving _ name, h =>
    (rereads_name_call .solving h rfl fun hcalls hform hn hname =>
      ⟨_, .solving hcalls hform hn, by simp [bare, hname]⟩).any _
  | _, _, .assign _ name e, ⟨hname, hbool, h⟩ => by
    refine (rereads_bound_call .assign hname (rereadsArguments_last hbool h.rereads) rfl
      fun hcalls hform hn hntext hm hargs hbare => ?_).any _
    obtain _ | ⟨he', ⟨⟩⟩ := forall₂_of_bareAll hbare
    exact ⟨_, .assign hcalls hform hn hm hargs, by simp [bare, he', hntext]⟩
  | _, _, .item _ name e true, ⟨hname, hbracket, hbool, h⟩ =>
    (rereads_element hname (hbracket rfl) hbool h.rereads).any _
  | _, _, .item _ name e false, ⟨hname, _, hbool, h⟩ => by
    refine (rereads_bound_call .item hname (rereadsArguments_last hbool h.rereads) rfl
      fun hcalls hform hn hntext hm hargs hbare => ?_).any _
    obtain _ | ⟨he', ⟨⟩⟩ := forall₂_of_bareAll hbare
    exact ⟨_, .item hcalls hform hn hm hargs, by simp [bare, he', hntext]⟩

theorem Expr.FitsAll.rereads {compat : Bool} : ∀ {es : List Expr},
    Expr.FitsAll compat es → es ≠ [] → RereadsArguments compat .value es
  | [_], ⟨⟨hbool, h⟩, _⟩, _ => rereadsArguments_last hbool h.rereads
  | _ :: _ :: _, ⟨⟨hbool, h⟩, hmore⟩, _ =>
    rereadsArguments_more hbool h.rereads (Expr.FitsAll.rereads hmore (cons_ne_nil _ _))

end

/-! ## Equations -/

namespace Expr

/-- The tree has the shape of an equation, with or without a name in front. -/
def FitsEquation (compat : Bool) : Expr → Prop
  | tagged _ name e => Writable compat name ∧ e.Fits compat .disjunction .top
  | e => e.Fits compat .disjunction .top

/-- The parser accepts exactly the tokens that derive an equation. -/
theorem parse_eq_ok_iff :
    parse compat text = .ok e ↔ (∃ n, (ofText compat text).ending = .ok n) ∧
      DerivesEquation (ofText compat text).tokens e := by
  unfold parse
  constructor
  · intro h
    cases heq : Parse.equation (ofText compat text) with
    | error cause => simp [heq, Except.map] at h
    | ok result =>
      obtain ⟨e', rest⟩ := result
      obtain rfl : e' = e := by simpa [heq, Except.map] using h
      exact equation_sound (fun t ht => (spelled_of_mem ht).notEnd) heq
  · rintro ⟨⟨n, hn⟩, h⟩
    have hstream : ofText compat text = ⟨(ofText compat text).tokens, .ok n⟩ := by rw [← hn]
    rw [hstream, equation_complete h n]
    rfl

theorem Fits.fitsEquation (h : e.Fits compat .disjunction .top) : e.FitsEquation compat := by
  cases e with
  | tagged => exact h.elim
  | _ => exact h

theorem fitsEquation_of_derives (h : DerivesEquation ts e) (hts : ∀ t ∈ ts, t.Spelled compat) :
    e.FitsEquation compat := by
  cases h with
  | plain hplain => exact (hplain.fits hts).fitsEquation
  | tagged hname _ hinner =>
    exact ⟨writable_of_names hname (hts _ (by simp)), hinner.fits fun t ht => hts t (by simp [ht])⟩

theorem fitsEquation_of_parse (h : parse compat text = .ok e) : e.FitsEquation compat :=
  fitsEquation_of_derives (parse_eq_ok_iff.1 h).2 fun _ => spelled_of_mem

theorem FitsEquation.exists_parse (h : e.FitsEquation compat) :
    ∃ e', parse compat (e.print compat) = .ok e' ∧ e'.bare = e.bare := by
  have hstream {text : Bytes} {ts : List Token} (hscan : Scans compat 0 text ts []) :
      ofText compat text = ⟨ts, .ok text.length⟩ := by
    rw [ofText_eq, ← append_nil text, hscan, ofCursor_nil]
    simp [prepend]
  have hplain (e : Expr) (h : e.Fits compat .disjunction .top) :
      ∃ e', parse compat (e.print compat) = .ok e' ∧ e'.bare = e.bare := by
    obtain ⟨ts, e', hscan, hderives, hbare⟩ := h.rereads 0 [] .nil
    refine ⟨e', parse_eq_ok_iff.2 ?_, hbare⟩
    rw [hstream hscan]
    exact ⟨⟨_, rfl⟩, .plain hderives⟩
  cases e with
  | tagged p name e =>
    obtain ⟨hname, h⟩ := h
    obtain ⟨ts, e', hscan, hderives, hbare⟩ := h.rereads (0 + name.length + 1) [] .nil
    obtain ⟨t, m, ht, htext, hm, hall⟩ := scans_bound hname hscan
    refine ⟨.tagged t.offset t.text e', parse_eq_ok_iff.2 ?_, by simp [bare, hbare, htext]⟩
    rw [show (tagged p name e).print compat = name ++ utf8 ":" ++ e.print compat from rfl,
      hstream hall]
    exact ⟨⟨_, rfl⟩, .tagged ht hm hderives⟩
  | _ => exact hplain _ h

theorem FitsEquation.untagged (h : e.FitsEquation compat) :
    e.untagged.Fits compat .disjunction .top := by
  cases e with
  | tagged => exact h.2
  | _ => exact h

/-- Printing and parsing are inverse, apart from the offsets of nodes and the spelling of numbers:
    for every tree that is parsed, and for every tree that solving it for a variable gives. -/
theorem parse_print {compat : Bool} {text : Bytes} {t : Expr} (h : parse compat text = .ok t) :
    (∃ t', parse compat (t.print compat) = .ok t' ∧ t'.bare = t.bare) ∧
      ∀ name r, t.isolate name = .ok r →
        ∃ r', parse compat (r.print compat) = .ok r' ∧ r'.bare = r.bare := by
  have hfits := fitsEquation_of_parse h
  refine ⟨hfits.exists_parse, fun name r hr => ?_⟩
  have hnumeric := numeric_isolate hfits.untagged hr
  have htop : r.Fits compat .sum .top := hnumeric.fits.of_inner rfl rfl
  exact (htop.mono Rank.sum_within_disjunction).fitsEquation.exists_parse

/-- The equation `A=(X-1)^-2`, named and solved for `X`. -/
theorem parse_print_inverse_square :
    ∃ t r, parse false (utf8 "Y:A=(X-1)^-2") = .ok t ∧ t.isolate (utf8 "X") = .ok r ∧
      (∃ t', parse false (t.print false) = .ok t' ∧ t'.bare = t.bare) ∧
      ∃ r', parse false (r.print false) = .ok r' ∧ r'.bare = r.bare := by
  obtain ⟨t, ht⟩ : ∃ t, parse false (utf8 "Y:A=(X-1)^-2") = .ok t := ⟨_, rfl⟩
  obtain ⟨r, hr⟩ : ∃ r, t.isolate (utf8 "X") = .ok r := by
    cases ht
    exact ⟨_, rfl⟩
  exact ⟨t, r, ht, hr, (parse_print ht).1, (parse_print ht).2 _ _ hr⟩

/-! ## Reading in compatibility mode -/

theorem nameFrom_compat {skip : Nat} (h : nameFrom false skip w = w) :
    nameFrom true skip w = w := by
  induction w generalizing skip with
  | nil => rfl
  | cons b w ih =>
    cases skip with
    | succ skip =>
      simp only [nameFrom, cons.injEq, true_and] at h ⊢
      exact ih h
    | zero =>
      obtain ⟨g, hg, -⟩ := exists_firstGlyph b w
      cases hends : endsName false g.code with
      | true => simp [nameFrom, hg, hends] at h
      | false =>
        have hcompat : endsName true g.code = false := by
          simp only [endsName, Bool.or_eq_false_iff] at hends ⊢
          exact ⟨hends.1, rfl⟩
        simp only [nameFrom, hg, hends, hcompat, Bool.false_eq_true, if_false, cons.injEq,
          true_and] at h ⊢
        exact ih h

/-- A token of normal mode could have been read in compatibility mode, unless it is a bracket: every
    name of normal mode is one there. -/
theorem spelled_compat (h : t.Spelled false) (hb : t.kind ≠ .leftBracket) : t.Spelled true where
  notEnd := h.notEnd
  number := h.number
  name hk := ⟨nameFrom_compat (h.name hk).whole, (h.name hk).start⟩
  bracket hk := absurd hk hb

/-- What is printed for compatibility mode is read there as the tree that was printed, apart from
    the offsets of nodes and the spelling of numbers, unless the text has square brackets. -/
theorem parse_print_compat {text : Bytes} {t : Expr} (h : parse false text = .ok t)
    (hbrackets : ∀ u ∈ (ofText false text).tokens, u.kind ≠ .leftBracket) :
    ∃ t', parse true (t.print true) = .ok t' ∧ t'.bare = t.bare := by
  refine (fitsEquation_of_derives (parse_eq_ok_iff.1 h).2 fun u hu => ?_).exists_parse
  exact spelled_compat (spelled_of_mem hu) (hbrackets u hu)

/-- The operators `*` and `!=`, which are written differently. -/
theorem parse_print_compat_operators :
    ∃ t t', parse false (utf8 "IF(A!=B:A*B:M)") = .ok t ∧
      parse true (t.print true) = .ok t' ∧ t'.bare = t.bare := by
  obtain ⟨t, ht⟩ : ∃ t, parse false (utf8 "IF(A!=B:A*B:M)") = .ok t := ⟨_, rfl⟩
  obtain ⟨t', hparse, hbare⟩ := parse_print_compat ht (by decide +kernel)
  exact ⟨t, t', ht, hparse, hbare⟩

end Expr

end Keystroke
