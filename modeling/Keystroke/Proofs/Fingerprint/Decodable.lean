import Keystroke.Proofs.Fingerprint.Serialize

set_option autoImplicit false

/-! # Forms can be read back from their bytes

What is written for a form is never the beginning of what is written for another, whatever stands
behind them: the bytes of a form followed by anything determine the form, and so what follows it
(`Form.serialize_append_eq_iff`). The one thing they do not tell is the sign of a zero. A form is
compared through its `unsigned` version, which has no negative zeros; that one is written with the
same bytes, and it is exact as soon as its names and lists are short enough. -/

namespace Keystroke

/-- The number itself, or zero in place of the negative zero. -/
def positiveZero (v : Float) : Float := if v.toBits = Binary64.zero true then 0 else v

theorem toBits_positiveZero (v : Float) : (positiveZero v).toBits ≠ Binary64.zero true := by
  unfold positiveZero
  split
  · decide
  · assumption

theorem Form.serializeNumber_positiveZero (v : Float) :
    serializeNumber (positiveZero v) = serializeNumber v := by
  unfold positiveZero
  split
  · next hbits =>
    have hzero : v = Float.ofBits (Binary64.zero true) := by rw [← hbits, Float.ofBits_toBits]
    rw [hzero]
    decide
  · rfl

namespace Form

mutual

/-- The form with zero in place of the negative zero. -/
def unsigned : Form → Form
  | number value => number (positiveZero value)
  | name target => name target
  | unary op e => unary op e.unsigned
  | binary op l r => binary op l.unsigned r.unsigned
  | apply fn e => apply fn e.unsigned
  | extremum greatest es => extremum greatest (unsignedAll es)
  | call n es => call n (unsignedAll es)
  | conditional c y n => conditional c.unsigned y.unsigned n.unsigned
  | sigma a b s e => sigma a.unsigned b.unsigned s.unsigned e.unsigned
  | fetch target => fetch target
  | assign target e => assign target e.unsigned
  | solving target => solving target
  | item target e => item target e.unsigned
  | equation n e => equation n e.unsigned

/-- Several forms with zero in place of the negative zero. -/
def unsignedAll : List Form → List Form
  | [] => []
  | e :: es => e.unsigned :: unsignedAll es

end

/-- All names and lists of arguments are shorter than 2³², so that the form without negative zeros
    is written exactly. -/
def Short (f : Form) : Prop := f.unsigned.Exact

@[simp]
theorem length_unsignedAll (es : List Form) : (unsignedAll es).length = es.length := by
  induction es with
  | nil => rfl
  | cons e es ih => rw [unsignedAll, List.length_cons, List.length_cons, ih]

mutual

theorem serializeNode_unsigned (f : Form) : f.unsigned.serializeNode = f.serializeNode := by
  cases f with
  | number v => rw [unsigned, serializeNode, serializeNode, serializeNumber_positiveZero]
  | name | fetch | solving => rw [unsigned]
  | unary op e | apply fn e | assign target e | item target e | equation n e =>
    rw [unsigned, serializeNode, serializeNode, serializeNode_unsigned e]
  | binary op l r =>
    rw [unsigned, serializeNode, serializeNode, serializeNode_unsigned l, serializeNode_unsigned r]
  | extremum greatest es | call n es =>
    rw [unsigned, serializeNode, serializeNode, serializeAll_unsigned es, length_unsignedAll]
  | conditional c y n =>
    rw [unsigned, serializeNode, serializeNode, serializeNode_unsigned c, serializeNode_unsigned y,
      serializeNode_unsigned n]
  | sigma a b s e =>
    rw [unsigned, serializeNode, serializeNode, serializeNode_unsigned a, serializeNode_unsigned b,
      serializeNode_unsigned s, serializeNode_unsigned e]

theorem serializeAll_unsigned (es : List Form) :
    serializeAll (unsignedAll es) = serializeAll es := by
  cases es with
  | nil => rfl
  | cons e es =>
    rw [unsignedAll, serializeAll, serializeAll, serializeNode_unsigned e, serializeAll_unsigned es]

end

/-- The bytes of a form and what follows them determine both, up to the signs of zeros. -/
theorem serializeNode_append_eq {a b : Form} (ha : a.Short) (hb : b.Short) {x y : Bytes} :
    a.serializeNode ++ x = b.serializeNode ++ y ↔ a.unsigned = b.unsigned ∧ x = y := by
  constructor
  · intro h
    rw [← serializeNode_unsigned a, ← serializeNode_unsigned b] at h
    exact serializeNode_append_inj ha hb h
  · rintro ⟨hab, rfl⟩
    rw [← serializeNode_unsigned a, hab, serializeNode_unsigned b]

/-- The written form can be decoded in one way only. Forms with anything behind them, with or
    without the version in front, are written alike if and only if they are the same up to the signs
    of zeros and the same stands behind them; in particular, so are forms by themselves. -/
theorem serialize_append_eq_iff {a b : Form} (ha : a.Short) (hb : b.Short) (x y : Bytes) :
    (a.serialize ++ x = b.serialize ++ y ↔ a.unsigned = b.unsigned ∧ x = y) ∧
      (a.serializeNode ++ x = b.serializeNode ++ y ↔ a.unsigned = b.unsigned ∧ x = y) ∧
      (a.serialize = b.serialize ↔ a.unsigned = b.unsigned) := by
  have hversion (x y : Bytes) :
      a.serialize ++ x = b.serialize ++ y ↔ a.unsigned = b.unsigned ∧ x = y := by
    rw [← serializeNode_append_eq ha hb]
    exact List.cons_inj_right _
  refine ⟨hversion x y, serializeNode_append_eq ha hb, ?_⟩
  simpa using hversion [] []

/-- `F(A:0)` with either zero is written alike, and the least of two names never begins with the
    least of one, whatever stands behind it. -/
theorem serialize_append_eq_iff_zeros :
    let one := name (.free (utf8 "A"))
    let two := name (.free (utf8 "B"))
    let plus := call (utf8 "F") [one, number 0]
    let minus := call (utf8 "F") [one, number (Float.ofBits (Binary64.zero true))]
    (∀ x y, minus.serialize ++ x = plus.serialize ++ y ↔ x = y) ∧
      ∀ x y, (extremum false [one, two]).serialize ++ x ≠
        (extremum false [one]).serialize ++ y := by
  intro one two plus minus
  have hA : one.Short := show (utf8 "A").length < 256 ^ 4 by decide
  have hB : two.Short := show (utf8 "B").length < 256 ^ 4 by decide
  have hplus : plus.Short := ⟨by decide, by decide, hA, toBits_positiveZero _, trivial⟩
  have hminus : minus.Short := ⟨by decide, by decide, hA, toBits_positiveZero _, trivial⟩
  have hone : (extremum false [one]).Short := ⟨by decide, hA, trivial⟩
  have htwo : (extremum false [one, two]).Short := ⟨by decide, hA, hB, trivial⟩
  have hunsigned : minus.unsigned = plus.unsigned := by
    have hzero : positiveZero (Float.ofBits (Binary64.zero true)) = positiveZero 0 := by decide
    simp only [minus, plus, unsigned, unsignedAll, hzero]
  refine ⟨fun x y => ?_, fun x y h => ?_⟩
  · rw [(serialize_append_eq_iff hminus hplus x y).1, and_iff_right hunsigned]
  · obtain ⟨hsame, -⟩ := (serialize_append_eq_iff htwo hone x y).1.1 h
    have hlength := congrArg List.length (extremum.inj hsame).2
    exact absurd hlength (by decide)

end Form

end Keystroke
