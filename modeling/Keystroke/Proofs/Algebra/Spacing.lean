import Keystroke.Proofs.Algebra.RoundTrip

set_option autoImplicit false

/-! # Spaces between tokens

A text is made up of tokens and the spaces around them, up to its end or its first malformed number
(`TokenStream.Laid`). No space is part of a token, and a token is read from its own bytes when a
space or nothing follows, so that the number of spaces between tokens does not matter. -/

namespace Keystroke

open TokenStream List

variable {compat : Bool} {g : Glyph} {k : TokenKind} {n offset : Nat} {w rest text : Bytes}
  {ts : List Token} {s : TokenStream} {c : Cursor}

/-! ## Tokens on their own -/

/-- The bytes are a token of the kind whenever a space or nothing follows. -/
structure Alone (compat : Bool) (k : TokenKind) (w : Bytes) : Prop where
  nonempty : w ≠ []
  noSpace : 32 ∉ w
  scans : ∀ (offset : Nat) (rest : Bytes), rest.head? = none ∨ rest.head? = some 32 →
    Scans compat offset w [⟨k, w, offset⟩] rest

theorem breaks_of_head (h : rest.head? = none ∨ rest.head? = some 32) : Breaks compat rest := by
  cases rest with
  | nil => exact .nil
  | cons b rest =>
    obtain rfl : b = 32 := by simpa using h
    exact breaks_of_byte (by decide) (by cases compat <;> rfl)

theorem NumberText.alone (hw : NumberText w) : Alone compat .number w where
  nonempty := by
    obtain ⟨b, rest, rfl, -⟩ := hw.exists_start
    exact cons_ne_nil _ _
  noSpace := NumberScan.notMem_of_run (s := {}) (.inr rfl) (by simpa using hw.whole)
  scans _ _ hrest := scans_number hw (breaks_of_head hrest)

theorem NameText.alone (hw : NameText compat w) : Alone compat .ident w where
  nonempty := by
    obtain ⟨b, rest, g, rfl, -⟩ := hw.exists_start
    exact cons_ne_nil _ _
  noSpace hmem := by
    -- a name would end at the space, and not take what stands behind it
    obtain ⟨u, v, rfl⟩ := append_of_mem hmem
    have hbreaks : Breaks compat (32 :: v) := breaks_of_head (.inr rfl)
    have hlen := congrArg length hw.whole
    rw [nameAt, nameFrom_append hbreaks.startsFresh (Nat.zero_le _)] at hlen
    split at hlen
    · have hnone : nameFrom compat 0 (32 :: v) = [] := nameAt_of_breaks hbreaks
      simp [hnone] at hlen
    · obtain ⟨more, hu, -⟩ := exists_nameFrom compat u (Nat.zero_le _)
      have := congrArg length hu
      simp only [length_append, length_cons] at this hlen
      omega
  scans _ _ hrest := scans_name hw (breaks_of_head hrest)

/-- The bytes of a character hold no space, unless it is one. -/
theorem space_notMem_glyph (hspace : text.head? ≠ some 32) (hg : firstGlyph? text = some g) :
    32 ∉ text.take g.width := by
  intro hmem
  obtain ⟨u, v, huv⟩ := append_of_mem hmem
  have hwidth := firstGlyph?_width hg
  have htake := firstGlyph?_take hg
  have hlen := congrArg length huv
  rw [huv] at htake
  cases u with
  | nil =>
    have := congrArg head? huv
    rw [head?_take, if_neg (by omega)] at this
    exact hspace this
  | cons a u =>
    rw [cons_append, firstGlyph?_append a u (by rfl)] at htake
    have := (firstGlyph?_width htake).2
    simp only [length_take, length_append, length_cons] at this hlen
    omega

theorem IsSymbol.alone (h : IsSymbol compat g text[1]? k n) (hspace : text.head? ≠ some 32)
    (hg : firstGlyph? text = some g) : Alone compat k (text.take n) := by
  obtain ⟨hpos, hle⟩ := h.width_le hg
  cases text with
  | nil => simp [firstGlyph?] at hg
  | cons b text =>
    have hb : b ≠ 32 := by simpa using hspace
    obtain ⟨m, rfl⟩ : ∃ m, n = m + 1 := ⟨n - 1, by omega⟩
    have hm : (text.take m).length = m := by
      rw [length_take, Nat.min_eq_left (Nat.le_of_succ_le_succ hle)]
    -- a symbol of two bytes that are two characters has an ASCII character in front
    have hwidth : m + 1 = g.width ∨ b < 0x80 ∧ g = ⟨b.toNat, 1⟩ ∧ m = 1 ∧
        (text.head? = some 61 ∨ text.head? = some 62) := by
      rcases h.width with hm | ⟨hcode, hn⟩
      · exact .inl hm
      · obtain ⟨hlow, rfl⟩ := firstGlyph?_code hg hcode
        rcases hn with hn | ⟨hn, hnext⟩
        · exact .inl hn
        · exact .inr ⟨hlow, rfl, by omega, by simpa [head?_eq_getElem?] using hnext⟩
    rw [take_succ_cons]
    refine ⟨cons_ne_nil _ _, ?_, fun offset rest hrest => ?_⟩
    · rcases hwidth with hm | ⟨-, -, rfl, hnext⟩
      · rw [← take_succ_cons, hm]
        exact space_notMem_glyph hspace hg
      · cases text with
        | nil => simp at hnext
        | cons x text => rcases hnext with hnext | hnext <;> simp_all [eq_comm]
    · refine scans_symbol hb ?_ (hm.symm ▸ h.follows _ ?_)
      · rcases hwidth with hm | ⟨hlow, rfl, -⟩
        · have hbreaks : Breaks compat rest := breaks_of_head hrest
          rw [firstGlyph?_append b _ hbreaks.startsFresh, ← take_succ_cons, hm]
          exact firstGlyph?_take hg
        · exact firstGlyph?_ascii hlow _
      · cases m with
        | zero => rcases hrest with hrest | hrest <;> simp [hrest]
        | succ m => cases text <;> simp_all

/-! ## Texts -/

/-- A malformed number stands in the text: its scan starts where it says, and finds no number. -/
def BadNumber.StandsIn (bad : BadNumber) (text : Bytes) : Prop :=
  (∃ b ∈ (text.drop bad.offset).head?, startsNumber b.toNat = true) ∧
  (NumberScan.run {} (text.drop bad.offset)).wellFormed = false ∧
  bad.text = (text.drop bad.offset).take (NumberScan.run {} (text.drop bad.offset)).width

theorem Cursor.leadingSpaces_append (text : Bytes) :
    replicate (leadingSpaces text) 32 ++ text.drop (leadingSpaces text) = text := by
  induction text with
  | nil => rfl
  | cons b text ih =>
    by_cases hb : b = 32
    · simp [leadingSpaces, hb, replicate_succ, ih]
    · simp [leadingSpaces, hb]

namespace TokenStream

/-- The offset up to which the text is made up of tokens. -/
def stop (s : TokenStream) : Nat :=
  match s.ending with
  | .ok n => n
  | .error bad => bad.offset

/-- The texts of tokens at their offsets, in spaces that go from one offset to another. -/
def spread (offset stop : Nat) : List Token → Bytes
  | [] => replicate (stop - offset) 32
  | t :: ts =>
    replicate (t.offset - offset) 32 ++ (t.text ++ spread (t.offset + t.text.length) stop ts)

/-- The stream is what the text holds: tokens with spaces around them, and then the end or a
    malformed number. -/
inductive Laid (compat : Bool) : Cursor → TokenStream → Prop
  | ending {offset n : Nat} :
    Laid compat ⟨offset, replicate n 32⟩ ⟨[], .ok (offset + n)⟩
  | malformed {offset n : Nat} {w rest : Bytes} (bad : BadNumber.StandsIn ⟨0, w⟩ rest) :
    Laid compat ⟨offset, replicate n 32 ++ rest⟩ ⟨[], .error ⟨offset + n, w⟩⟩
  | token {offset n : Nat} {k : TokenKind} {w rest : Bytes} {s : TokenStream}
      (alone : Alone compat k w) (more : Laid compat ⟨offset + n + w.length, rest⟩ s) :
    Laid compat ⟨offset, replicate n 32 ++ (w ++ rest)⟩ (s.prepend [⟨k, w, offset + n⟩])

theorem ofCursor_spaces (n offset : Nat) (rest : Bytes) :
    ofCursor compat ⟨offset, replicate n 32 ++ rest⟩ = ofCursor compat ⟨offset + n, rest⟩ := by
  induction n generalizing offset with
  | zero => rfl
  | succ n ih =>
    rw [replicate_succ, cons_append, ofCursor_space, ih, Nat.add_assoc, Nat.add_comm 1]

theorem ofCursor_error {bad : BadNumber} (h : (c.next compat).1 = .error bad) :
    ofCursor compat c = ⟨[], .error bad⟩ := by
  rw [ofCursor, readFrom]
  split
  · next hnext => simp_all
  · next hnext => simp [hnext] at h

theorem laid_ofCursor (compat : Bool) (offset : Nat) (text : Bytes) :
    Laid compat ⟨offset, text⟩ (ofCursor compat ⟨offset, text⟩) := by
  induction hlen : text.length using Nat.strongRecOn generalizing offset text with
  | _ len ih =>
    have htext := Cursor.leadingSpaces_append text
    have hhead := Cursor.head_skipSpaces offset text
    obtain ⟨n, hn⟩ : ∃ n, Cursor.leadingSpaces text = n := ⟨_, rfl⟩
    have hskip : Cursor.skipSpaces ⟨offset, text⟩ = ⟨offset + n, text.drop n⟩ := by
      rw [Cursor.skipSpaces, hn]
      rfl
    rw [hskip] at hhead
    rw [hn] at htext
    generalize text.drop n = rest at htext hskip hhead
    subst htext
    rcases @Cursor.next_cases compat _ _ hskip with ⟨hnil, -⟩ | ⟨g, hg, hstart, hwell, hnext⟩ |
      ⟨k, m, hnext, hpos, hle, hspelled, hkind⟩
    · obtain rfl : rest = [] := hnil
      rw [ofCursor_spaces, ofCursor_nil, append_nil]
      exact .ending
    · rw [ofCursor_error hnext]
      refine .malformed ⟨?_, hwell, rfl⟩
      cases rest with
      | nil => simp [firstGlyph?] at hg
      | cons b rest =>
        have hcode : g.code < 0x80 := by
          simp only [startsNumber, Bool.or_eq_true, beq_iff_eq, Bool.and_eq_true,
            decide_eq_true_eq] at hstart
          omega
        obtain ⟨-, rfl⟩ := firstGlyph?_code hg hcode
        exact ⟨b, rfl, hstart⟩
    · have hm : (rest.take m).length = m := by
        rw [length_take, Nat.min_eq_left hle]
      have halone : Alone compat k (rest.take m) := by
        rcases hkind with rfl | rfl | ⟨g, hg, hsymbol⟩
        · exact (hspelled.number rfl).alone
        · exact (hspelled.name rfl).alone
        · exact hsymbol.alone hhead hg
      have hmore := ih (rest.drop m).length (by simp at hle hlen ⊢; omega) (offset + n + m)
        (rest.drop m) rfl
      rw [ofCursor_next hnext hspelled.notEnd]
      rw [← hm] at hmore
      have hlaid := Laid.token halone hmore
      rwa [hm, take_append_drop] at hlaid

variable {compat : Bool} {s : TokenStream} {c : Cursor}

theorem sub_eq_of_le {m : Nat} (h : offset + n + w.length ≤ m) : m - offset =
    (replicate n (32 : UInt8) ++ w).length + (m - (offset + n + w.length)) := by
  simp only [length_append, length_replicate]
  omega

namespace Laid

theorem bounds (h : Laid compat c s) :
    c.offset ≤ s.stop ∧ s.stop ≤ c.offset + c.rest.length ∧
      c.rest.take (s.stop - c.offset) = spread c.offset s.stop s.tokens := by
  induction h with
  | ending => simp [stop, spread]
  | malformed _ => simp [stop, spread]
  | @token offset n k w rest s alone _ ih =>
    have hstop : (s.prepend [⟨k, w, offset + n⟩]).stop = s.stop := rfl
    obtain ⟨hlow, hhigh, htext⟩ := ih
    simp only [hstop, tokens_prepend, cons_append, nil_append, spread, length_append,
      length_replicate] at *
    refine ⟨by omega, by omega, ?_⟩
    rw [← htext, ← append_assoc, sub_eq_of_le hlow, take_length_add_append,
      append_assoc, Nat.add_sub_cancel_left]

theorem mem_tokens (h : Laid compat c s) {t : Token} (ht : t ∈ s.tokens) :
    Alone compat t.kind t.text ∧ c.offset ≤ t.offset ∧ t.offset + t.text.length ≤ s.stop ∧
      (c.rest.drop (t.offset - c.offset)).take t.text.length = t.text := by
  induction h with
  | ending => simp at ht
  | malformed _ => simp at ht
  | @token offset n k w rest s alone more ih =>
    rw [tokens_prepend, singleton_append, mem_cons] at ht
    rcases ht with rfl | ht
    · exact ⟨alone, by simp, more.bounds.1, by simp⟩
    · obtain ⟨ht, hlow, hhigh, htext⟩ := ih ht
      simp only at hlow htext ⊢
      refine ⟨ht, by omega, hhigh, ?_⟩
      rwa [← append_assoc, sub_eq_of_le hlow, drop_length_add_append]

theorem pairwise (h : Laid compat c s) : s.tokens.Pairwise fun t u => t.offset < u.offset := by
  induction h with
  | ending => exact .nil
  | malformed _ => exact .nil
  | token alone more ih =>
    refine .cons (fun t ht => ?_) ih
    have := (more.mem_tokens ht).2.1
    have := length_pos_iff.2 alone.nonempty
    simp only at *
    omega

theorem stands (h : Laid compat c s) :
    match s.ending with
    | .ok n => n = c.offset + c.rest.length
    | .error bad => c.offset ≤ bad.offset ∧
      BadNumber.StandsIn ⟨bad.offset - c.offset, bad.text⟩ c.rest := by
  induction h with
  | ending => simp
  | malformed bad => simpa [BadNumber.StandsIn] using bad
  | @token offset n k w rest s alone more ih =>
    rw [ending_prepend]
    cases hending : s.ending with
    | ok n => simp [hending] at ih ⊢; omega
    | error bad =>
      simp only [hending] at ih ⊢
      refine ⟨by omega, ?_⟩
      simpa only [BadNumber.StandsIn, ← append_assoc, sub_eq_of_le ih.1,
        drop_length_add_append] using ih.2

end Laid

/-! ## Other spaces -/

theorem head_spread {stop : Nat} (h : ∀ t ∈ ts.head?, offset < t.offset) :
    (spread offset stop ts).head? = none ∨ (spread offset stop ts).head? = some 32 := by
  cases ts with
  | nil => cases hn : stop - offset <;> simp [spread, hn, replicate_succ]
  | cons t ts =>
    obtain ⟨n, hn⟩ : ∃ n, t.offset - offset = n + 1 :=
      ⟨t.offset - offset - 1, by have := h t rfl; omega⟩
    simp [spread, hn, replicate_succ]

/-- Tokens that can be read on their own are read from any text that keeps them apart. -/
theorem ofCursor_spread {stop : Nat} (halone : ∀ t ∈ ts, Alone compat t.kind t.text)
    (hapart : ts.Pairwise fun t u => t.offset + t.text.length < u.offset)
    (hfirst : ∀ t ∈ ts.head?, offset ≤ t.offset) (hstop : offset ≤ stop)
    (hend : ∀ t ∈ ts, t.offset + t.text.length ≤ stop) :
    ofCursor compat ⟨offset, spread offset stop ts⟩ = ⟨ts, .ok stop⟩ := by
  induction ts generalizing offset with
  | nil =>
    rw [spread, ← append_nil (replicate _ _), ofCursor_spaces, ofCursor_nil,
      Nat.add_sub_cancel' hstop]
  | cons t ts ih =>
    obtain ⟨ht, hmore⟩ := forall_mem_cons.1 halone
    obtain ⟨hlast, hends⟩ := forall_mem_cons.1 hend
    obtain ⟨hnext, hapart⟩ := pairwise_cons.1 hapart
    have hnext : ∀ u ∈ ts.head?, t.offset + t.text.length < u.offset := fun u hu =>
      hnext u (mem_of_mem_head? hu)
    have hscans := ht.scans t.offset (spread (t.offset + t.text.length) stop ts) (head_spread hnext)
    rw [spread, ofCursor_spaces, Nat.add_sub_cancel' (hfirst t rfl), hscans,
      ih hmore hapart (fun u hu => Nat.le_of_lt (hnext u hu)) hlast hends]
    rfl

/-- Reading the tokens of a text loses nothing but the lengths of spaces, and these do not matter:
    the tokens are parts of the text, at their offsets, and no bound on their number stops the
    reader. They fill the text with spaces in between, up to the end or a malformed number. Any text
    that puts spaces between them has the same tokens. -/
theorem ofText_lossless (compat : Bool) (text : Bytes) :
    let s := ofText compat text
    (∀ count, text.length < count → readFrom compat count ⟨0, text⟩ = s) ∧
    (∀ t ∈ s.tokens, t.text ≠ [] ∧ 32 ∉ t.text ∧
      (text.drop t.offset).take t.text.length = t.text) ∧
    s.tokens.Pairwise (fun t u => t.offset < u.offset) ∧
    text.take s.stop = spread 0 s.stop s.tokens ∧
    (match s.ending with
      | .ok n => n = text.length
      | .error bad => bad.StandsIn text) ∧
    ∀ (ts : List Token) (stop : Nat),
      ts.map (fun t => (t.kind, t.text)) = s.tokens.map (fun t => (t.kind, t.text)) →
      ts.Pairwise (fun t u => t.offset + t.text.length < u.offset) →
      (∀ t ∈ ts, t.offset + t.text.length ≤ stop) →
      ofText compat (spread 0 stop ts) = ⟨ts, .ok stop⟩ := by
  intro s
  have hlaid : Laid compat ⟨0, text⟩ s := laid_ofCursor compat 0 text
  refine ⟨fun count hcount => readFrom_eq hcount, fun t ht => ?_, hlaid.pairwise, ?_, ?_,
    fun ts stop hts hapart hend => ?_⟩
  · obtain ⟨halone, -, -, htext⟩ := hlaid.mem_tokens ht
    exact ⟨halone.nonempty, halone.noSpace, htext⟩
  · exact hlaid.bounds.2.2
  · have hstands := hlaid.stands
    cases hending : s.ending with
    | ok n => simpa [hending] using hstands
    | error bad => simpa [hending] using hstands
  · refine ofCursor_spread (fun t ht => ?_) hapart (fun _ _ => Nat.zero_le _) (Nat.zero_le _) hend
    have hmem : (t.kind, t.text) ∈ s.tokens.map fun t => (t.kind, t.text) := hts ▸ mem_map_of_mem ht
    obtain ⟨u, hu, heq⟩ := mem_map.1 hmem
    obtain ⟨hkind, htext⟩ := Prod.mk.inj heq
    exact hkind ▸ htext ▸ (hlaid.mem_tokens hu).1

end TokenStream

end Keystroke
