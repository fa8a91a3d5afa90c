import Keystroke.Proofs.Algebra.Soundness

set_option autoImplicit false

/-! # Texts of tokens

What the reader of tokens finds depends on the bytes of a token and on the character behind it
only. A name and a number are read back from their own bytes when the next character ends names;
every token that is read has such a text. -/

namespace Keystroke

open List

variable {w rest : Bytes} {s : NumberScan} {compat : Bool} {g : Glyph} {n : Nat} {c : Cursor}
  {t : Token}

/-- What follows ends a name, and a number too. -/
def Breaks (compat : Bool) (rest : Bytes) : Prop :=
  ∀ g, firstGlyph? rest = some g → endsName compat g.code = true

/-- The bytes of a name. -/
structure NameText (compat : Bool) (w : Bytes) : Prop where
  whole : nameAt compat w = w
  start : (firstGlyph? w).map (fun g => startsNumber g.code) = some false

/-- The bytes of a number. -/
structure NumberText (w : Bytes) : Prop where
  wellFormed : (NumberScan.run {} w).wellFormed = true
  whole : (NumberScan.run {} w).width = w.length

namespace Breaks

theorem nil : Breaks compat [] := by
  intro g h
  simp [firstGlyph?] at h

theorem startsFresh (h : Breaks compat rest) : startsFresh rest = true := by
  cases rest with
  | nil => rfl
  | cons b rest =>
    by_cases hb : isContinuation b = true
    · have := h _ (firstGlyph?_continuation hb rest)
      cases compat <;> simp [endsName, Glyph.malformed] at this
    · simpa [Keystroke.startsFresh] using hb

theorem not_numeric {b : UInt8} (h : Breaks compat (b :: rest)) :
    isPoint b = false ∧ isExponentMark b = false ∧ isDigitByte b = false := by
  -- what continues a number is an ASCII byte, and none of these ends a name
  have hcode (hlow : b.toNat < 128) : endsName compat b.toNat = true :=
    h _ (firstGlyph?_ascii (UInt8.lt_iff_toNat_lt.2 hlow) rest)
  have hends (hlow : b.toNat < 128) : b.toNat ≠ 24 ∧ b.toNat ≠ 44 ∧ b.toNat ≠ 46 ∧
      b.toNat ≠ 69 ∧ b.toNat ≠ 101 ∧ ¬ (48 ≤ b.toNat ∧ b.toNat ≤ 57) := by
    have := hcode hlow
    simp only [endsName, contains_eq_mem, mem_cons, not_mem_nil, or_false,
      Bool.or_eq_true, decide_eq_true_eq, Bool.and_eq_true] at this
    omega
  simp only [isPoint, isExponentMark, exponentByte, isDigitByte, Bool.or_eq_false_iff,
    beq_eq_false_iff_ne, ne_eq, ← UInt8.toNat_inj, UInt8.le_iff_toNat_le, Bool.and_eq_false_iff,
    decide_eq_false_iff_not]
  simp only [UInt8.reduceToNat]
  omega

end Breaks

/-! ## Names -/

section Names

theorem exists_firstGlyph (b : UInt8) (text : Bytes) :
    ∃ g, firstGlyph? (b :: text) = some g ∧ g.width - 1 ≤ text.length := by
  have hsome : (firstGlyph? (b :: text)).isSome = true := rfl
  obtain ⟨g, hg⟩ := Option.isSome_iff_exists.1 hsome
  have := (firstGlyph?_width hg).2
  simp only [length_cons] at this
  exact ⟨g, hg, by omega⟩

/-- A name that takes all of a text goes on behind it, and any other is the same whatever
    follows. -/
theorem nameFrom_append {skip : Nat} (hrest : startsFresh rest = true) (hskip : skip ≤ w.length) :
    nameFrom compat skip (w ++ rest) =
      if nameFrom compat skip w = w then w ++ nameFrom compat 0 rest
      else nameFrom compat skip w := by
  induction w generalizing skip with
  | nil =>
    obtain rfl : skip = 0 := by simpa using hskip
    rfl
  | cons b w ih =>
    cases skip with
    | succ skip =>
      have hw := @ih skip (by simpa using hskip)
      simp only [nameFrom, cons_append, cons.injEq, true_and, hw]
      split <;> rfl
    | zero =>
      obtain ⟨g, hg, hwidth⟩ := exists_firstGlyph b w
      simp only [nameFrom, cons_append, firstGlyph?_append b w hrest, hg]
      by_cases hends : endsName compat g.code = true
      · simp [hends]
      · simp only [hends, Bool.false_eq_true, if_false, cons.injEq, true_and, ih hwidth]
        split <;> rfl

theorem exists_nameFrom (compat : Bool) (text : Bytes) {skip : Nat} (hskip : skip ≤ text.length) :
    ∃ rest, text = nameFrom compat skip text ++ rest ∧ Breaks compat rest ∧
      skip ≤ (nameFrom compat skip text).length := by
  induction text generalizing skip with
  | nil => exact ⟨[], by simp [nameFrom], .nil, by simpa [nameFrom] using hskip⟩
  | cons b text ih =>
    cases skip with
    | succ skip =>
      obtain ⟨rest, htext, hbreaks, hlength⟩ := @ih skip (by simpa using hskip)
      exact ⟨rest, by simpa [nameFrom] using htext, hbreaks, by simpa [nameFrom] using hlength⟩
    | zero =>
      obtain ⟨g, hg, hwidth⟩ := exists_firstGlyph b text
      by_cases hends : endsName compat g.code = true
      · refine ⟨b :: text, by simp [nameFrom, hg, hends], fun g' hg' => ?_, by simp⟩
        rw [hg] at hg'
        exact Option.some.inj hg' ▸ hends
      · obtain ⟨rest, htext, hbreaks, -⟩ := ih hwidth
        exact ⟨rest, by simpa [nameFrom, hg, hends] using htext, hbreaks, by simp⟩

theorem nameAt_of_breaks (h : Breaks compat rest) : nameAt compat rest = [] := by
  cases rest with
  | nil => rfl
  | cons b rest =>
    obtain ⟨g, hg, -⟩ := exists_firstGlyph b rest
    simp [nameAt, nameFrom, hg, h g hg]

theorem NameText.exists_start (hw : NameText compat w) :
    ∃ b v g, w = b :: v ∧ firstGlyph? (b :: v) = some g ∧ endsName compat g.code = false ∧
      startsNumber g.code = false := by
  obtain ⟨whole, start⟩ := hw
  cases w with
  | nil => simp [firstGlyph?] at start
  | cons b v =>
    obtain ⟨g, hg, -⟩ := exists_firstGlyph b v
    refine ⟨b, v, g, rfl, hg, ?_, by simpa [hg] using start⟩
    cases hends : endsName compat g.code with
    | false => rfl
    | true => simp [nameAt, nameFrom, hg, hends] at whole

theorem NameText.nameAt_append (hw : NameText compat w) (hrest : Breaks compat rest) :
    nameAt compat (w ++ rest) = w := by
  have hname : nameFrom compat 0 w = w := hw.whole
  have hbehind : nameFrom compat 0 rest = [] := nameAt_of_breaks hrest
  simp [nameAt, nameFrom_append hrest.startsFresh (Nat.zero_le _), hname, hbehind]

theorem nameAt_nameAt (compat : Bool) (text : Bytes) :
    nameAt compat (nameAt compat text) = nameAt compat text := by
  obtain ⟨rest, htext, hbreaks, -⟩ := exists_nameFrom compat text (Nat.zero_le _)
  have happend := @nameFrom_append (nameFrom compat 0 text) rest compat 0
    hbreaks.startsFresh (Nat.zero_le _)
  rw [← htext] at happend
  split at happend
  · assumption
  · exact happend.symm

end Names

/-! ## Numbers -/

namespace NumberScan

theorem width_of_step {s' : NumberScan} {b : UInt8} (h : s.step? b = some s') :
    s'.width = s.width + 1 := by
  unfold step? at h
  cases hpart : s.part <;> simp only [hpart] at h <;> repeat' split at h
  all_goals first | (cases h; rfl) | simp at h

theorem width_stop (s : NumberScan) (b : UInt8) : (s.stop b).width = s.width := by
  unfold stop
  split <;> rfl

theorem run_append (h : (run s w).width = s.width + w.length) (rest : Bytes) :
    run s (w ++ rest) = run (run s w) rest := by
  induction w generalizing s with
  | nil => rfl
  | cons b w ih =>
    simp only [cons_append, run] at h ⊢
    cases hstep : s.step? b with
    | none =>
      simp only [hstep, width_stop, length_cons] at h
      omega
    | some s' =>
      simp only [hstep, length_cons] at h ⊢
      exact ih (by rw [h, width_of_step hstep]; omega)

/-- A scan takes a beginning of the text, and finds the same in it alone. -/
theorem exists_run (s : NumberScan) (text : Bytes) (hpoint : (run s text).secondPoint = false) :
    ∃ w rest, text = w ++ rest ∧ (run s text).width = s.width + w.length ∧
      run s w = run s text := by
  induction text generalizing s with
  | nil => exact ⟨[], [], rfl, rfl, rfl⟩
  | cons b text ih =>
    rw [run] at hpoint ⊢
    cases hstep : s.step? b with
    | none =>
      simp only [hstep] at hpoint ⊢
      refine ⟨[], b :: text, rfl, width_stop s b, ?_⟩
      unfold stop at hpoint ⊢
      split at hpoint <;> simp_all [run]
    | some s' =>
      simp only [hstep] at hpoint ⊢
      obtain ⟨w, rest, rfl, hwidth, hrun⟩ := ih s' hpoint
      refine ⟨b :: w, rest, rfl, ?_, ?_⟩
      · rw [hwidth, width_of_step hstep]
        simp only [length_cons]
        omega
      · simp only [run, hstep, hrun]

theorem run_of_breaks (h : Breaks compat rest) (hpart : s.part ≠ .exponentSign) :
    run s rest = s := by
  cases rest with
  | nil => rfl
  | cons b rest =>
    obtain ⟨hpoint, hmark, hdigit⟩ := h.not_numeric
    have hstep : s.step? b = none := by
      unfold step?
      cases hp : s.part <;> simp_all
    rw [run, hstep]
    simp [stop, hpoint]

theorem step?_of_blank {b : UInt8} (hb : b = 0 ∨ b = 32) (s : NumberScan) : s.step? b = none := by
  rcases hb with rfl | rfl <;> cases hpart : s.part <;>
    simp [step?, hpart, isPoint, isExponentMark, isDigitByte, exponentByte]

theorem notMem_of_run {b : UInt8} (hb : b = 0 ∨ b = 32)
    (h : (run s w).width = s.width + w.length) : b ∉ w := by
  induction w generalizing s with
  | nil => exact not_mem_nil
  | cons a w ih =>
    rw [run, length_cons] at h
    cases hstep : s.step? a with
    | none =>
      simp only [hstep, width_stop] at h
      omega
    | some s' =>
      simp only [hstep] at h
      rw [mem_cons, not_or]
      refine ⟨?_, ih (by rw [h, width_of_step hstep]; omega)⟩
      rintro rfl
      simp [step?_of_blank hb] at hstep

/-- Behind the mark of the exponent there are no more digits of the mantissa. -/
theorem mantissaDigits_run (h : s.part = .exponentSign ∨ s.part = .exponent) (text : Bytes) :
    (run s text).mantissaDigits = s.mantissaDigits := by
  induction text generalizing s with
  | nil => rfl
  | cons b text ih =>
    rw [run]
    cases hstep : s.step? b with
    | none =>
      simp only [stop]
      split <;> rfl
    | some s' =>
      have hs' : (s'.part = .exponentSign ∨ s'.part = .exponent) ∧
          s'.mantissaDigits = s.mantissaDigits := by
        unfold step? at hstep
        rcases h with h | h <;> simp only [h] at hstep <;> repeat' split at hstep
        all_goals first | (cases hstep; simp_all) | simp at hstep
      simp only [ih hs'.1, hs'.2]

end NumberScan

namespace NumberText

theorem run_append (hw : NumberText w) (hrest : Breaks compat rest) :
    NumberScan.run {} (w ++ rest) = NumberScan.run {} w := by
  rw [NumberScan.run_append (by simpa using hw.whole)]
  refine NumberScan.run_of_breaks hrest fun hpart => ?_
  simpa [NumberScan.wellFormed, hpart] using hw.wellFormed

theorem exists_start (hw : NumberText w) :
    ∃ b rest, w = b :: rest ∧ b < 0x80 ∧ startsNumber b.toNat = true := by
  have hdigits : (NumberScan.run {} w).mantissaDigits ≠ 0 := by
    intro h
    simpa [NumberScan.wellFormed, h] using hw.wellFormed
  cases w with
  | nil => exact absurd rfl hdigits
  | cons b rest =>
    refine ⟨b, rest, rfl, ?_⟩
    rw [NumberScan.run] at hdigits
    by_cases hpoint : isPoint b = true
    · simp only [isPoint, Bool.or_eq_true, beq_iff_eq] at hpoint
      rcases hpoint with rfl | rfl <;> decide
    by_cases hmark : isExponentMark b = true
    · simp only [NumberScan.step?, hpoint, hmark, if_true, Bool.false_eq_true, if_false] at hdigits
      exact absurd (NumberScan.mantissaDigits_run (.inl rfl) rest) hdigits
    by_cases hdigit : isDigitByte b = true
    · simp only [isDigitByte, UInt8.le_iff_toNat_le, Bool.and_eq_true, decide_eq_true_eq] at hdigit
      simp only [UInt8.reduceToNat] at hdigit
      refine ⟨UInt8.lt_iff_toNat_lt.2 (Nat.lt_of_le_of_lt hdigit.2 (by decide)), ?_⟩
      simp [startsNumber, hdigit.1, hdigit.2]
    · simp [NumberScan.step?, NumberScan.stop, hpoint, hmark, hdigit] at hdigits

end NumberText

/-! ## Tokens -/

/-- The token could have been read: a name and a number have texts of their own, and brackets are
    tokens only when they are no characters of names. -/
structure Token.Spelled (compat : Bool) (t : Token) : Prop where
  notEnd : t.kind ≠ .endOfText
  number : t.kind = .number → NumberText t.text
  name : t.kind = .ident → NameText compat t.text
  bracket : t.kind = .leftBracket → compat = false

theorem endsName_eq_true {code : Nat} (h : endsName compat code = true) :
    code ∈ [32, 43, 45, 94, 40, 41, 58, 61, 60, 62, 0xD7, 0xF7, 0x2260, 0x2264, 0x2265,
      0, 1, 9, 11, 12] ∨ compat = false ∧ code ∈ [42, 47, 91, 93, 33] := by
  simpa [endsName] using h

theorem symbol?_of_endsName (h : endsName compat g.code = false) (next : Option UInt8) :
    symbol? compat g next = none := by
  simp only [endsName, contains_eq_mem, mem_cons, not_mem_nil, or_false,
    Bool.or_eq_false_iff, decide_eq_false_iff_not, not_or, Bool.and_eq_false_iff,
    Bool.not_eq_false'] at h
  obtain ⟨⟨h1, h2, h3, h4, h5, h6, h7, h8, h9, h10, h11, h12, h13, h14, h15, h16, h17, h18, h19,
    h20⟩, hcompat⟩ := h
  simp only [symbol?, h2, h3, h4, h5, h6, h7, h8, h9, h10, h11, h12, h13, h14, h15, h16, h17, h18,
    h19, h20, if_false, decide_false, Bool.or_self, Bool.false_eq_true]
  rcases hcompat with rfl | ⟨h21, h22, h23, h24, h25⟩
  · rfl
  · simp [h21, h22, h23, h24, h25]

/-- A symbol is no name, number or end. It is one character, or two bytes, and what follows is no
    part of it. -/
structure IsSymbol (compat : Bool) (g : Glyph) (next : Option UInt8) (k : TokenKind) (n : Nat) :
    Prop where
  kind : k ≠ .endOfText ∧ k ≠ .number ∧ k ≠ .ident ∧ (k = .leftBracket → compat = false)
  width : n = g.width ∨ g.code < 0x80 ∧ (n = 1 ∨ n = 2 ∧ (next = some 61 ∨ next = some 62))
  follows : ∀ next', (if n = 1 then next' ≠ some 61 ∧ next' ≠ some 62 else next' = next) →
    symbol? compat g next' = some (k, n)

theorem symbol?_cases (h : endsName compat g.code = true) (next : Option UInt8) :
    (symbol? compat g next = none → g.code = 32) ∧
      ∀ {k : TokenKind} {n : Nat}, symbol? compat g next = some (k, n) →
        IsSymbol compat g next k n := by
  rcases endsName_eq_true h with hcode | ⟨rfl, hcode⟩
  · simp only [mem_cons, not_mem_nil, or_false] at hcode
    rcases hcode with hc | hc | hc | hc | hc | hc | hc | hc | hc | hc | hc | hc | hc | hc | hc |
      hc | hc | hc | hc | hc
    all_goals refine ⟨fun h => ?_, fun h => ⟨?_, ?_, fun next' hnext => ?_⟩⟩ <;>
      simp [symbol?, hc] at h ⊢ <;> grind
  · simp only [mem_cons, not_mem_nil, or_false] at hcode
    rcases hcode with hc | hc | hc | hc | hc
    all_goals refine ⟨fun h => ?_, fun h => ⟨?_, ?_, fun next' hnext => ?_⟩⟩ <;>
      simp [symbol?, hc] at h ⊢ <;> grind

theorem isSymbol {next : Option UInt8} {k : TokenKind} (h : symbol? compat g next = some (k, n)) :
    IsSymbol compat g next k n := by
  cases hends : endsName compat g.code with
  | true => exact (symbol?_cases hends next).2 h
  | false => simp [symbol?_of_endsName hends] at h

/-- A symbol takes at least one byte, and no more than there are. -/
theorem IsSymbol.width_le {text : Bytes} {k : TokenKind} (h : IsSymbol compat g text[1]? k n)
    (hg : firstGlyph? text = some g) : 1 ≤ n ∧ n ≤ text.length := by
  have hwidth := firstGlyph?_width hg
  rcases h.width with rfl | ⟨-, rfl | ⟨rfl, hnext⟩⟩
  · exact hwidth
  · omega
  · have : 1 < text.length := by
      rcases hnext with hnext | hnext <;> exact (List.getElem?_eq_some_iff.1 hnext).1
    omega

theorem endsName_of_symbol {next : Option UInt8} (h : symbol? compat g next = none)
    (hspace : g.code ≠ 32) : endsName compat g.code = false := by
  cases hends : endsName compat g.code with
  | false => rfl
  | true => exact absurd ((symbol?_cases hends next).1 h) hspace

namespace Cursor

theorem skipSpaces_of_head (h : c.rest.head? ≠ some 32) : c.skipSpaces = c := by
  obtain ⟨offset, rest⟩ := c
  cases rest with
  | nil => rfl
  | cons b rest =>
    have hb : b ≠ 32 := by simpa using h
    simp [skipSpaces, leadingSpaces, hb, advance]

theorem skipSpaces_space (offset : Nat) (rest : Bytes) :
    skipSpaces ⟨offset, 32 :: rest⟩ = skipSpaces ⟨offset + 1, rest⟩ := by
  simp [skipSpaces, leadingSpaces, advance]
  omega

theorem head_skipSpaces (offset : Nat) (text : Bytes) :
    (skipSpaces ⟨offset, text⟩).rest.head? ≠ some 32 := by
  induction text generalizing offset with
  | nil => simp [skipSpaces, leadingSpaces, advance]
  | cons b rest ih =>
    by_cases hb : b = 32
    · subst hb
      exact ih (offset + 1)
    · rw [skipSpaces_of_head (by simpa using hb)]
      simpa using hb

theorem next_symbol {k : TokenKind} (hspace : c.rest.head? ≠ some 32)
    (hg : firstGlyph? c.rest = some g) (hsymbol : symbol? compat g c.rest[1]? = some (k, n)) :
    next compat c = (.ok ⟨k, c.rest.take n, c.offset⟩, c.advance n) := by
  simp only [next, skipSpaces_of_head hspace, hg, hsymbol, take]

theorem next_name (hw : NameText compat w) (hrest : Breaks compat rest) (offset : Nat) :
    next compat ⟨offset, w ++ rest⟩ = (.ok ⟨.ident, w, offset⟩, ⟨offset + w.length, rest⟩) := by
  have hname := hw.nameAt_append hrest
  obtain ⟨b, w, g, rfl, hg, hends, hstart⟩ := hw.exists_start
  have hglyph : firstGlyph? (b :: w ++ rest) = some g := by
    rw [cons_append, firstGlyph?_append b w hrest.startsFresh, hg]
  have hspace : (b :: w ++ rest).head? ≠ some 32 := by
    intro h
    obtain rfl : b = 32 := by simpa using h
    cases hg
    cases compat <;> simp [endsName] at hends
  simp only [next, skipSpaces_of_head (c := ⟨offset, b :: w ++ rest⟩) hspace, hglyph,
    symbol?_of_endsName hends, hstart, Bool.false_eq_true, if_false, take, advance, hname]
  simp

theorem next_number (hw : NumberText w) (hrest : Breaks compat rest) (offset : Nat) :
    next compat ⟨offset, w ++ rest⟩ = (.ok ⟨.number, w, offset⟩, ⟨offset + w.length, rest⟩) := by
  have hrun := hw.run_append hrest
  obtain ⟨b, w, rfl, hb, hstart⟩ := hw.exists_start
  have hglyph : firstGlyph? (b :: w ++ rest) = some ⟨b.toNat, 1⟩ := firstGlyph?_ascii hb _
  have hcode : b.toNat = 46 ∨ b.toNat = 44 ∨ 48 ≤ b.toNat ∧ b.toNat ≤ 57 := by
    simpa [startsNumber, or_assoc] using hstart
  have hends : endsName compat b.toNat = false := by
    cases hends : endsName compat b.toNat with
    | false => rfl
    | true =>
      rcases endsName_eq_true hends with h | ⟨-, h⟩ <;>
        simp only [mem_cons, not_mem_nil, or_false] at h <;> omega
  have hspace : (b :: w ++ rest).head? ≠ some 32 := by
    intro h
    obtain rfl : b = 32 := by simpa using h
    simp at hcode
  simp only [next, skipSpaces_of_head (c := ⟨offset, b :: w ++ rest⟩) hspace, hglyph,
    symbol?_of_endsName (g := ⟨b.toNat, 1⟩) hends, hstart, if_true, hrun, hw.wellFormed, take,
    advance, hw.whole]
  simp

theorem spelled_number (h : (NumberScan.run {} c.rest).wellFormed = true) :
    (c.take .number (NumberScan.run {} c.rest).width).1.Spelled compat ∧
      1 ≤ (NumberScan.run {} c.rest).width ∧
      (NumberScan.run {} c.rest).width ≤ c.rest.length := by
  have hpoint : (NumberScan.run {} c.rest).secondPoint = false := by
    simp only [NumberScan.wellFormed, Bool.and_eq_true, Bool.not_eq_true'] at h
    exact h.1.1.2
  obtain ⟨w, rest, htext, hwidth, hrun⟩ := NumberScan.exists_run {} c.rest hpoint
  have hlength : (NumberScan.run {} c.rest).width = w.length := by simpa using hwidth
  have hw : NumberText w := ⟨by rw [hrun, h], by rw [hrun, hlength]⟩
  have htake : c.rest.take (NumberScan.run {} c.rest).width = w := by
    rw [hlength, htext, take_left]
  obtain ⟨b, w, rfl, -, -⟩ := hw.exists_start
  refine ⟨⟨?_, fun _ => ?_, ?_, ?_⟩, by simp [hlength], ?_⟩
  · simp [take]
  · simpa [take, htake] using hw
  · simp [take]
  · simp [take]
  · rw [hlength, htext, length_append]
    exact Nat.le_add_right _ _

theorem spelled_name (hg : firstGlyph? c.rest = some g) (hends : endsName compat g.code = false)
    (hstart : startsNumber g.code = false) :
    (c.take .ident (nameAt compat c.rest).length).1.Spelled compat ∧
      1 ≤ (nameAt compat c.rest).length ∧ (nameAt compat c.rest).length ≤ c.rest.length := by
  obtain ⟨offset, text⟩ := c
  obtain ⟨rest, htext, hbreaks, -⟩ := exists_nameFrom compat text (Nat.zero_le _)
  have htake : text.take (nameAt compat text).length = nameAt compat text := by
    have := congrArg (List.take (nameAt compat text).length) htext
    rwa [← nameAt, take_left] at this
  cases text with
  | nil => simp [firstGlyph?] at hg
  | cons b text =>
    have hname : nameAt compat (b :: text) = b :: nameFrom compat (g.width - 1) text := by
      simp [nameAt, nameFrom, hg, hends]
    have hfirst : firstGlyph? (nameAt compat (b :: text)) = some g := by
      rw [hname, ← firstGlyph?_append _ _ hbreaks.startsFresh, ← hg]
      rw [← nameAt, hname] at htext
      exact congrArg firstGlyph? htext.symm
    refine ⟨⟨by simp [take], by simp [take], fun _ => ?_, by simp [take]⟩, by simp [hname], ?_⟩
    · simp only [take, htake]
      exact ⟨nameAt_nameAt compat _, by simp [hfirst, hstart]⟩
    · have := length_take_le' (nameAt compat (b :: text)).length (b :: text)
      rwa [htake] at this

theorem length_skipSpaces (c : Cursor) : c.skipSpaces.rest.length ≤ c.rest.length := by
  simp [skipSpaces, advance]

/-- Behind the spaces there is the end, a malformed number, or a token with a proper spelling. -/
theorem next_cases {d : Cursor} (hd : c.skipSpaces = d) :
    (d.rest = [] ∧ next compat c = (.ok ⟨.endOfText, [], d.offset⟩, d)) ∨
    (∃ g, firstGlyph? d.rest = some g ∧ startsNumber g.code = true ∧
      (NumberScan.run {} d.rest).wellFormed = false ∧
      (next compat c).1 = .error ⟨d.offset, d.rest.take (NumberScan.run {} d.rest).width⟩) ∨
    ∃ k n, next compat c = (.ok ⟨k, d.rest.take n, d.offset⟩, d.advance n) ∧
      1 ≤ n ∧ n ≤ d.rest.length ∧ Token.Spelled compat ⟨k, d.rest.take n, d.offset⟩ ∧
      (k = .number ∨ k = .ident ∨ ∃ g, firstGlyph? d.rest = some g ∧
        IsSymbol compat g d.rest[1]? k n) := by
  have hspace : d.rest.head? ≠ some 32 := hd ▸ head_skipSpaces c.offset c.rest
  simp only [next, hd]
  cases hg : firstGlyph? d.rest with
  | none =>
    have hnil : d.rest = [] := by
      cases hrest : d.rest with
      | nil => rfl
      | cons b rest => simp [hrest, firstGlyph?] at hg
    exact .inl ⟨hnil, rfl⟩
  | some g =>
    right
    cases hsymbol : symbol? compat g d.rest[1]? with
    | some kn =>
      obtain ⟨k, n⟩ := kn
      simp only [hsymbol]
      have hsymbol := isSymbol hsymbol
      obtain ⟨hend, hnumber, hident, hbracket⟩ := hsymbol.kind
      obtain ⟨hpos, hle⟩ := hsymbol.width_le hg
      exact .inr ⟨k, n, rfl, hpos, hle, ⟨hend, fun hk => absurd hk hnumber,
        fun hk => absurd hk hident, hbracket⟩, .inr (.inr ⟨g, rfl, hsymbol⟩)⟩
    | none =>
      by_cases hstart : startsNumber g.code = true
      · simp only [hsymbol, hstart, if_true]
        cases hwell : (NumberScan.run {} d.rest).wellFormed with
        | false => exact .inl ⟨g, rfl, hstart, rfl, rfl⟩
        | true =>
          obtain ⟨hspelled, hpos, hle⟩ := @spelled_number compat d hwell
          exact .inr ⟨_, _, rfl, hpos, hle, hspelled, .inl rfl⟩
      · simp only [hsymbol, hstart, Bool.false_eq_true, if_false]
        have hcode : g.code ≠ 32 := by
          intro hcode
          cases hrest : d.rest with
          | nil => simp [hrest, firstGlyph?] at hg
          | cons b rest =>
            rw [hrest] at hg hspace
            obtain ⟨-, rfl⟩ := firstGlyph?_code hg (by omega)
            exact hspace (congrArg some (UInt8.toNat_inj.1 hcode))
        obtain ⟨hspelled, hpos, hle⟩ := spelled_name hg (endsName_of_symbol hsymbol hcode)
          (by simpa using hstart)
        exact .inr ⟨_, _, rfl, hpos, hle, hspelled, .inr (.inl rfl)⟩

/-- The next token is the end, or it has a proper spelling and takes bytes of the text. -/
theorem next_spelled {after : Cursor} (h : next compat c = (.ok t, after)) :
    t.kind = .endOfText ∨ t.Spelled compat ∧ after.rest.length < c.rest.length := by
  rcases @next_cases compat c _ rfl with ⟨-, hnext⟩ | ⟨g, -, -, -, hnext⟩ |
    ⟨k, n, hnext, hpos, hle, hspelled, -⟩
  · obtain ⟨ht, -⟩ := Prod.mk.inj (hnext.symm.trans h)
    exact .inl (Except.ok.inj ht ▸ rfl)
  · simp [h] at hnext
  · obtain ⟨ht, rfl⟩ := Prod.mk.inj (hnext.symm.trans h)
    obtain rfl := Except.ok.inj ht
    refine .inr ⟨hspelled, ?_⟩
    have := length_skipSpaces c
    simp only [advance, length_drop] at *
    omega

end Cursor

/-! ## Streams -/

namespace TokenStream

/-- The tokens from a cursor on. -/
def ofCursor (compat : Bool) (c : Cursor) : TokenStream := readFrom compat (c.rest.length + 1) c

theorem ofText_eq (compat : Bool) (text : Bytes) : ofText compat text = ofCursor compat ⟨0, text⟩ :=
  rfl

/-- There are no more tokens than bytes, so a greater bound changes nothing. -/
theorem readFrom_eq {count : Nat} (h : c.rest.length < count) :
    readFrom compat count c = ofCursor compat c := by
  have hboth (m n : Nat) (c : Cursor) (hm : c.rest.length < m) (hn : c.rest.length < n) :
      readFrom compat m c = readFrom compat n c := by
    induction m generalizing n c with
    | zero => omega
    | succ m ih =>
      obtain ⟨n, rfl⟩ : ∃ k, n = k + 1 := ⟨n - 1, by omega⟩
      simp only [readFrom]
      cases hnext : c.next compat with
      | mk result after =>
        cases result with
        | error bad => rfl
        | ok t =>
          rcases Cursor.next_spelled hnext with hend | ⟨-, hlength⟩
          · simp [hend]
          · simp only [ih n after (by omega) (by omega)]
  exact hboth count _ c h (Nat.lt_succ_self _)

theorem ofCursor_next {after : Cursor} (h : c.next compat = (.ok t, after))
    (ht : t.kind ≠ .endOfText) : ofCursor compat c = prepend [t] (ofCursor compat after) := by
  rcases Cursor.next_spelled h with hend | ⟨-, hlength⟩
  · exact absurd hend ht
  · conv => lhs; unfold ofCursor
    simp only [readFrom, h, ht, if_false, readFrom_eq hlength]
    rfl

theorem ofCursor_nil (offset : Nat) : ofCursor compat ⟨offset, []⟩ = ⟨[], .ok offset⟩ := rfl

theorem ofCursor_space (offset : Nat) (rest : Bytes) :
    ofCursor compat ⟨offset, 32 :: rest⟩ = ofCursor compat ⟨offset + 1, rest⟩ := by
  rw [← readFrom_eq (c := ⟨offset + 1, rest⟩) (Nat.lt_succ_of_lt (Nat.lt_succ_self _))]
  simp only [ofCursor, readFrom, Cursor.next, Cursor.skipSpaces_space]
  rfl

theorem spelled_of_mem {text : Bytes} (h : t ∈ (ofText compat text).tokens) : t.Spelled compat := by
  have hread (count : Nat) (c : Cursor) : ∀ t ∈ (readFrom compat count c).tokens,
      t.Spelled compat := by
    induction count generalizing c with
    | zero => simp [readFrom]
    | succ count ih =>
      intro t ht
      simp only [readFrom] at ht
      cases hnext : c.next compat with
      | mk result after =>
        cases result with
        | error bad => simp [hnext] at ht
        | ok u =>
          rcases Cursor.next_spelled hnext with hend | ⟨hspelled, -⟩
          · simp [hnext, hend] at ht
          · simp only [hnext, hspelled.notEnd, if_false, mem_cons] at ht
            rcases ht with rfl | ht
            · exact hspelled
            · exact ih after t ht
  exact hread _ _ t h

end TokenStream

end Keystroke
