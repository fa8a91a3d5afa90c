import Keystroke.Text.Bytes

set_option autoImplicit false

/-! # Characters in byte strings

Reading never fails: a byte that starts no well-formed character counts as the replacement
character with width one, so that every byte string splits into characters. Overlong forms,
surrogates and values above `10FFFF` are not well formed. -/

namespace Keystroke

/-- A character read from the front of a byte string, with the number of bytes it took. -/
structure Glyph where
  code : Nat
  width : Nat
deriving DecidableEq, Repr

namespace Glyph

/-- What a byte that starts no character counts as. -/
def malformed : Glyph := ⟨0xFFFD, 1⟩

/-- Whether the glyph stands for a byte that starts no character. The replacement character
    itself takes three bytes when it is written out. -/
def isMalformed (g : Glyph) : Bool := g.code == 0xFFFD && g.width == 1

end Glyph

def isContinuation (b : UInt8) : Bool := 0x80 ≤ b && b ≤ 0xBF

private def continuationBits (b : UInt8) : Nat := b.toNat % 64

/-- The range in which the second byte of a three-byte character must lie. -/
private def secondOfThree (first second : UInt8) : Bool :=
  if first == 0xE0 then 0xA0 ≤ second && second ≤ 0xBF
  else if first == 0xED then 0x80 ≤ second && second ≤ 0x9F
  else isContinuation second

/-- The range in which the second byte of a four-byte character must lie. -/
private def secondOfFour (first second : UInt8) : Bool :=
  if first == 0xF0 then 0x90 ≤ second && second ≤ 0xBF
  else if first == 0xF4 then 0x80 ≤ second && second ≤ 0x8F
  else isContinuation second

private def longGlyph (a : UInt8) : Bytes → Glyph
  | b :: rest =>
    if 0xC2 ≤ a && a ≤ 0xDF then
      if isContinuation b then ⟨(a.toNat % 32) * 64 + continuationBits b, 2⟩ else .malformed
    else if 0xE0 ≤ a && a ≤ 0xEF then
      match rest with
      | c :: _ =>
        if secondOfThree a b && isContinuation c then
          ⟨(a.toNat % 16) * 4096 + continuationBits b * 64 + continuationBits c, 3⟩
        else .malformed
      | [] => .malformed
    else if 0xF0 ≤ a && a ≤ 0xF4 then
      match rest with
      | c :: d :: _ =>
        if secondOfFour a b && isContinuation c && isContinuation d then
          ⟨(a.toNat % 8) * 262144 + continuationBits b * 4096 + continuationBits c * 64
            + continuationBits d, 4⟩
        else .malformed
      | _ => .malformed
    else .malformed
  | [] => .malformed

def firstGlyph? : Bytes → Option Glyph
  | [] => none
  | a :: rest => some (if a < 0x80 then ⟨a.toNat, 1⟩ else longGlyph a rest)

/-- Whether a byte string cannot continue a character: it is empty or starts with no continuation
    byte. -/
def startsFresh : Bytes → Bool
  | [] => true
  | b :: _ => !isContinuation b

private theorem secondOfThree_of_not {a b : UInt8} (h : isContinuation b = false) :
    secondOfThree a b = false := by
  simp only [isContinuation, secondOfThree, UInt8.le_iff_toNat_le, Bool.and_eq_false_iff,
    decide_eq_false_iff_not] at h ⊢
  repeat' split
  all_goals
    simp_all
    omega

private theorem secondOfFour_of_not {a b : UInt8} (h : isContinuation b = false) :
    secondOfFour a b = false := by
  simp only [isContinuation, secondOfFour, UInt8.le_iff_toNat_le, Bool.and_eq_false_iff,
    decide_eq_false_iff_not] at h ⊢
  repeat' split
  all_goals
    simp_all
    omega

/-- A byte that continues nothing ends a character as the end of the text does. -/
private theorem longGlyph_append {a b : UInt8} (s rest : Bytes) (hb : isContinuation b = false) :
    longGlyph a (s ++ b :: rest) = longGlyph a s := by
  match s with
  | [] =>
    match rest with
    | [] | [c] | c :: d :: rest =>
      simp [longGlyph, hb, secondOfThree_of_not hb, secondOfFour_of_not hb]
  | [x] => cases rest <;> simp [longGlyph, hb]
  | [x, y] => simp [longGlyph, hb]
  | x :: y :: z :: s => simp [longGlyph]

/-- A character does not depend on what follows its bytes. -/
theorem firstGlyph?_append (a : UInt8) (s : Bytes) {rest : Bytes} (h : startsFresh rest = true) :
    firstGlyph? (a :: (s ++ rest)) = firstGlyph? (a :: s) := by
  cases rest with
  | nil => simp
  | cons b rest =>
    have hb : isContinuation b = false := by simpa [startsFresh] using h
    simp only [firstGlyph?, longGlyph_append s rest hb]

private theorem longGlyph_width (a : UInt8) (s : Bytes) :
    1 ≤ (longGlyph a s).width ∧ (longGlyph a s).width ≤ s.length + 1 := by
  unfold longGlyph
  repeat' split
  all_goals simp [Glyph.malformed]

/-- A character takes at least one byte, and no more than there are. -/
theorem firstGlyph?_width {text : Bytes} {g : Glyph} (h : firstGlyph? text = some g) :
    1 ≤ g.width ∧ g.width ≤ text.length := by
  cases text with
  | nil => simp [firstGlyph?] at h
  | cons a s =>
    simp only [firstGlyph?, Option.some.injEq] at h
    subst h
    split
    · simp
    · exact longGlyph_width a s

private theorem longGlyph_take {a : UInt8} {s : Bytes} {g : Glyph} (h : longGlyph a s = g) :
    longGlyph a (s.take (g.width - 1)) = g := by
  unfold longGlyph at h
  repeat' split at h
  all_goals
    subst h
    simp [longGlyph, Glyph.malformed, *]

/-- A character is read from its own bytes. -/
theorem firstGlyph?_take {text : Bytes} {g : Glyph} (h : firstGlyph? text = some g) :
    firstGlyph? (text.take g.width) = some g := by
  obtain ⟨n, hn⟩ : ∃ n, g.width = n + 1 := ⟨g.width - 1, by have := firstGlyph?_width h; omega⟩
  cases text with
  | nil => simp [firstGlyph?] at h
  | cons a s =>
    rw [hn, List.take_succ_cons]
    by_cases ha : a < 0x80
    · simpa [firstGlyph?, ha] using h
    · simp only [firstGlyph?, ha, if_false, Option.some.injEq] at h ⊢
      simpa [hn] using longGlyph_take h

theorem firstGlyph?_ascii {b : UInt8} (h : b < 0x80) (rest : Bytes) :
    firstGlyph? (b :: rest) = some ⟨b.toNat, 1⟩ := by
  simp [firstGlyph?, h]

private theorem secondOfThree_bound {a b : UInt8} (h : secondOfThree a b = true)
    (ha : 0xE0 ≤ a.toNat ∧ a.toNat ≤ 0xEF) :
    0x80 ≤ a.toNat % 16 * 4096 + continuationBits b * 64 := by
  unfold secondOfThree continuationBits at *
  by_cases ha0 : a = 0xE0
  · have hb : 0xA0 ≤ b.toNat ∧ b.toNat ≤ 0xBF := by
      simpa [ha0, UInt8.le_iff_toNat_le] using h
    omega
  · have ha1 : a.toNat ≠ 0xE0 := fun h => ha0 (UInt8.toNat_inj.1 h)
    omega

private theorem secondOfFour_bound {a b : UInt8} (h : secondOfFour a b = true)
    (ha : 0xF0 ≤ a.toNat ∧ a.toNat ≤ 0xF4) :
    0x80 ≤ a.toNat % 8 * 262144 + continuationBits b * 4096 := by
  unfold secondOfFour continuationBits at *
  by_cases ha0 : a = 0xF0
  · have hb : 0x90 ≤ b.toNat ∧ b.toNat ≤ 0xBF := by
      simpa [ha0, UInt8.le_iff_toNat_le] using h
    omega
  · have ha1 : a.toNat ≠ 0xF0 := fun h => ha0 (UInt8.toNat_inj.1 h)
    omega

/-- Only the ASCII bytes stand for ASCII characters: longer forms of them are not well formed. -/
private theorem longGlyph_code (a : UInt8) (s : Bytes) : 0x80 ≤ (longGlyph a s).code := by
  have hmalformed : 0x80 ≤ Glyph.malformed.code := by decide
  unfold longGlyph
  split
  · split
    · rename_i ha
      simp only [Bool.and_eq_true, decide_eq_true_eq, UInt8.le_iff_toNat_le] at ha
      simp only [UInt8.reduceToNat] at ha
      split
      · show 0x80 ≤ a.toNat % 32 * 64 + _
        omega
      · exact hmalformed
    · split
      · rename_i ha
        simp only [Bool.and_eq_true, decide_eq_true_eq, UInt8.le_iff_toNat_le] at ha
        split
        · split
          · rename_i h
            simp only [Bool.and_eq_true] at h
            exact Nat.le_trans (secondOfThree_bound h.1 ha) (Nat.le_add_right _ _)
          · exact hmalformed
        · exact hmalformed
      · split
        · rename_i ha
          simp only [Bool.and_eq_true, decide_eq_true_eq, UInt8.le_iff_toNat_le] at ha
          split
          · split
            · rename_i h
              simp only [Bool.and_eq_true] at h
              exact Nat.le_trans (secondOfFour_bound h.1.1 ha) (by show _ ≤ _ + _ + _; omega)
            · exact hmalformed
          · exact hmalformed
        · exact hmalformed
  · exact hmalformed

theorem firstGlyph?_code {b : UInt8} {rest : Bytes} {g : Glyph}
    (h : firstGlyph? (b :: rest) = some g) (hg : g.code < 0x80) : b < 0x80 ∧ g = ⟨b.toNat, 1⟩ := by
  simp only [firstGlyph?, Option.some.injEq] at h
  subst h
  by_cases hb : b < 0x80
  · simp [hb]
  · simp only [hb, if_false] at hg
    exact absurd (longGlyph_code b rest) (Nat.not_le.2 hg)

theorem firstGlyph?_continuation {b : UInt8} (h : isContinuation b = true) (rest : Bytes) :
    firstGlyph? (b :: rest) = some .malformed := by
  have h : 0x80 ≤ b.toNat ∧ b.toNat ≤ 0xBF := by
    simpa [isContinuation, UInt8.le_iff_toNat_le] using h
  have hlow : ¬ b < 0x80 := by simp [UInt8.lt_iff_toNat_lt]; omega
  simp only [firstGlyph?, hlow, if_false, Option.some.injEq]
  cases rest with
  | nil => rfl
  | cons c rest =>
    simp only [longGlyph, UInt8.le_iff_toNat_le, Bool.and_eq_true, decide_eq_true_eq]
    rw [if_neg (by simp; omega), if_neg (by simp; omega), if_neg (by simp; omega)]

/-- The characters of a byte string, each with its own bytes. The first argument is the number of
    bytes of the current character that are still to be passed. -/
private def glyphsFrom : Nat → Bytes → List (Glyph × Bytes)
  | _, [] => []
  | skip + 1, _ :: rest => glyphsFrom skip rest
  | 0, a :: rest =>
    let g := if a < 0x80 then ⟨a.toNat, 1⟩ else longGlyph a rest
    (g, (a :: rest).take g.width) :: glyphsFrom (g.width - 1) rest

def glyphs (bytes : Bytes) : List (Glyph × Bytes) := glyphsFrom 0 bytes

def isUtf8 (bytes : Bytes) : Bool := (glyphs bytes).all fun g => !g.1.isMalformed

/-- The bytes of a character. A value that is no character is written as the replacement
    character. -/
def encodeScalar (code : Nat) : Bytes :=
  let tail (n : Nat) : UInt8 := (0x80 + n % 64).toUInt8
  if code < 0x80 then [code.toUInt8]
  else if code < 0x800 then [(0xC0 + code / 64).toUInt8, tail code]
  else if 0xD800 ≤ code && code ≤ 0xDFFF || 0x10FFFF < code then [0xEF, 0xBF, 0xBD]
  else if code < 0x10000 then [(0xE0 + code / 4096).toUInt8, tail (code / 64), tail code]
  else [(0xF0 + code / 262144).toUInt8, tail (code / 4096), tail (code / 64), tail code]

end Keystroke
