import Keystroke.Fingerprint.Form
import Keystroke.Proofs.Decimal.Binary64

set_option autoImplicit false

/-! # The written form of an equation says what the equation is

Every node is written with a tag in front, and lengths stand before strings and lists, so what
follows a form in a byte string can be told from the form itself. Two forms that are written alike
are the same form (`Form.serialize_inj`), as long as lengths fit into their four bytes and no number
is the negative zero, which is written like the positive one. -/

namespace Keystroke

open List

variable {width m n : Nat} {v : Float} {f g : Form}

/-! ## Numbers and strings -/

@[simp]
theorem length_bigEndian (width n : Nat) : (bigEndian width n).length = width := by
  induction width generalizing n with
  | zero => rfl
  | succ width ih => rw [bigEndian, length_append, ih, length_singleton]

theorem bigEndian_inj (hm : m < 256 ^ width) (hn : n < 256 ^ width)
    (h : bigEndian width m = bigEndian width n) : m = n := by
  induction width generalizing m n with
  | zero => omega
  | succ width ih =>
    obtain ⟨hhigh, hlow⟩ := append_inj h (by simp)
    have hdiv := ih (by omega) (by omega) hhigh
    have hmod : m % 256 = n % 256 := by
      have hbyte := congrArg UInt8.toNat (singleton_inj.1 hlow)
      simp only [Nat.toUInt8_eq, UInt8.toNat_ofNat'] at hbyte
      omega
    omega

section

variable {r r' : Bytes}

theorem bigEndian_append_inj (hm : m < 256 ^ width) (hn : n < 256 ^ width)
    (h : bigEndian width m ++ r = bigEndian width n ++ r') : m = n ∧ r = r' := by
  obtain ⟨hnum, hrest⟩ := append_inj h (by simp)
  exact ⟨bigEndian_inj hm hn hnum, hrest⟩

theorem sizedBytes_append_inj {a b : Bytes} (ha : a.length < 256 ^ 4) (hb : b.length < 256 ^ 4)
    (h : sizedBytes a ++ r = sizedBytes b ++ r') : a = b ∧ r = r' := by
  obtain ⟨hlen, hrest⟩ := bigEndian_append_inj ha hb h
  exact append_inj hrest hlen

theorem UnaryOp.outlineName_inj {a b : UnaryOp} (h : utf8 a.outlineName = utf8 b.outlineName) :
    a = b := by
  cases a <;> cases b <;> first | rfl | exact absurd h (by decide)

theorem BinaryOp.outlineName_inj {a b : BinaryOp} (h : utf8 a.outlineName = utf8 b.outlineName) :
    a = b := by
  cases a <;> cases b <;> first | rfl | exact absurd h (by decide)

theorem Function.name_inj {a b : Function} (h : utf8 a.name = utf8 b.name) : a = b := by
  cases a <;> cases b <;> first | rfl | exact absurd h (by decide)

theorem UnaryOp.length_outlineName (a : UnaryOp) : (utf8 a.outlineName).length < 256 ^ 4 := by
  cases a <;> decide

theorem BinaryOp.length_outlineName (a : BinaryOp) : (utf8 a.outlineName).length < 256 ^ 4 := by
  cases a <;> decide

theorem Function.length_name (a : Function) : (utf8 a.name).length < 256 ^ 4 := by
  cases a <;> decide

/-! ## Zeros -/

open Float.Model in
theorem toBits_of_eq_zero (h : (v == 0) = true) : v.toBits = 0 ∨ v.toBits = Binary64.zero true := by
  have hcompare : v.toModel.unpack.compare (.zero .positive) = some .eq := by
    have hbool : (v.toModel.unpack.compare (.zero .positive) == some .eq) = true := h
    simpa using hbool
  have hbits : v.toBits = (pack v.toModel.unpack).toBits :=
    congrArg Float.toBits (Float.ofBits_toBits v).symm
  cases hunpack : v.toModel.unpack with
  | zero sign =>
    rw [hbits, hunpack]
    cases sign with
    | positive => exact .inl rfl
    | negative => exact .inr rfl
  | notANumber =>
    rw [hunpack] at hcompare
    cases hcompare
  | infinity sign =>
    rw [hunpack] at hcompare
    cases sign <;> cases hcompare
  | finite sign m e hm =>
    rw [hunpack] at hcompare
    cases sign <;> cases hcompare

namespace Form

/-- A number that is not the negative zero can be told from what follows it. -/
theorem serializeNumber_append_inj {w : Float} (hv : v.toBits ≠ Binary64.zero true)
    (hw : w.toBits ≠ Binary64.zero true) (h : serializeNumber v ++ r = serializeNumber w ++ r') :
    v = w ∧ r = r' := by
  have hpattern (x : Float) (hx : x.toBits ≠ Binary64.zero true) :
      (if x == 0 then 0 else x.toBits.toNat) = x.toBits.toNat := by
    split
    · next hzero =>
      rcases toBits_of_eq_zero hzero with h0 | h0
      · rw [h0]
        rfl
      · exact absurd h0 hx
    · rfl
  rw [serializeNumber, serializeNumber, hpattern v hv, hpattern w hw] at h
  obtain ⟨hbits, hrest⟩ := bigEndian_append_inj v.toBits.toNat_lt w.toBits.toNat_lt h
  refine ⟨?_, hrest⟩
  rw [← Float.ofBits_toBits v, ← Float.ofBits_toBits w, UInt64.toNat_inj.1 hbits]

end Form

/-! ## Forms -/

/-- The length of a name fits into four bytes. -/
def NameRef.Exact : NameRef → Prop
  | free name => name.length < 256 ^ 4
  | bound _ => True

theorem NameRef.serialize_append_inj {a b : NameRef} (ha : a.Exact) (hb : b.Exact)
    (h : a.serialize ++ r = b.serialize ++ r') : a = b ∧ r = r' := by
  cases a with
  | free m =>
    cases b with
    | free n =>
      obtain ⟨rfl, hrest⟩ := sizedBytes_append_inj ha hb (cons.inj h).2
      exact ⟨rfl, hrest⟩
    | bound e => exact absurd (cons.inj h).1 (by decide)
  | bound d =>
    cases b with
    | free n => exact absurd (cons.inj h).1 (by decide)
    | bound e =>
      obtain ⟨hdepth, hrest⟩ := bigEndian_append_inj d.toNat_lt e.toNat_lt (cons.inj h).2
      exact ⟨congrArg bound (UInt16.toNat_inj.1 hdepth), hrest⟩

namespace Form

mutual

/-- Lengths fit into their four bytes, and no number is the negative zero. -/
def Exact : Form → Prop
  | number value => value.toBits ≠ Binary64.zero true
  | name target | fetch target | solving target => target.Exact
  | unary _ e | apply _ e => e.Exact
  | binary _ l r => l.Exact ∧ r.Exact
  | extremum _ es => es.length < 256 ^ 4 ∧ ExactAll es
  | call n es => n.length < 256 ^ 4 ∧ es.length < 256 ^ 4 ∧ ExactAll es
  | conditional c y n => c.Exact ∧ y.Exact ∧ n.Exact
  | sigma a b s e => a.Exact ∧ b.Exact ∧ s.Exact ∧ e.Exact
  | assign target e | item target e => target.Exact ∧ e.Exact
  | equation n e => n.length < 256 ^ 4 ∧ e.Exact

/-- All of several forms are exact. -/
def ExactAll : List Form → Prop
  | [] => True
  | e :: es => e.Exact ∧ ExactAll es

end

/-- The byte that stands in front of a form; for a name, that of a variable. -/
def kind : Form → UInt8
  | number _ => 0x01
  | name _ => 0x02
  | unary _ _ => 0x10
  | binary _ _ _ => 0x11
  | apply _ _ => 0x12
  | extremum _ _ => 0x13
  | call _ _ => 0x14
  | conditional _ _ _ => 0x20
  | sigma _ _ _ _ => 0x21
  | fetch _ => 0x30
  | assign _ _ => 0x31
  | solving _ => 0x32
  | item _ _ => 0x33
  | equation _ _ => 0x40

theorem serializeNode_eq_cons (f : Form) :
    ∃ b rest, f.serializeNode = b :: rest ∧ f.kind = if b = 0x03 then 0x02 else b := by
  cases f with
  | name target => cases target <;> exact ⟨_, _, rfl, rfl⟩
  | _ => exact ⟨_, _, by rw [serializeNode], rfl⟩

theorem kind_eq (h : f.serializeNode ++ r = g.serializeNode ++ r') : f.kind = g.kind := by
  obtain ⟨b, _, hf, hkind⟩ := f.serializeNode_eq_cons
  obtain ⟨c, _, hg, hkind'⟩ := g.serializeNode_eq_cons
  rw [hf, hg] at h
  obtain rfl : b = c := (cons.inj h).1
  rw [hkind, hkind']

mutual

/-- A form can be told from what follows it. -/
theorem serializeNode_append_inj : ∀ {f g : Form} {r r' : Bytes}, f.Exact → g.Exact →
    f.serializeNode ++ r = g.serializeNode ++ r' → f = g ∧ r = r' := by
  intro f g r r' hf hg h
  have hkind := kind_eq h
  cases f <;> cases g
  case number.number v w =>
    rw [serializeNode, serializeNode] at h
    obtain ⟨rfl, hrest⟩ := serializeNumber_append_inj hf hg (cons.inj h).2
    exact ⟨rfl, hrest⟩
  case name.name a b =>
    rw [serializeNode, serializeNode] at h
    obtain ⟨rfl, hrest⟩ := NameRef.serialize_append_inj hf hg h
    exact ⟨rfl, hrest⟩
  case unary.unary op e op' e' =>
    simp only [serializeNode, cons_append, append_assoc] at h
    obtain ⟨hop, h1⟩ := sizedBytes_append_inj op.length_outlineName op'.length_outlineName
      (cons.inj h).2
    obtain ⟨rfl, hrest⟩ := serializeNode_append_inj (f := e) (g := e') hf hg h1
    obtain rfl := UnaryOp.outlineName_inj hop
    exact ⟨rfl, hrest⟩
  case binary.binary op a b op' a' b' =>
    simp only [serializeNode, cons_append, append_assoc] at h
    obtain ⟨hop, h1⟩ := sizedBytes_append_inj op.length_outlineName op'.length_outlineName
      (cons.inj h).2
    obtain ⟨rfl, h2⟩ := serializeNode_append_inj hf.1 hg.1 h1
    obtain ⟨rfl, hrest⟩ := serializeNode_append_inj hf.2 hg.2 h2
    obtain rfl := BinaryOp.outlineName_inj hop
    exact ⟨rfl, hrest⟩
  case apply.apply fn e fn' e' =>
    simp only [serializeNode, cons_append, append_assoc] at h
    obtain ⟨hfn, h1⟩ := sizedBytes_append_inj fn.length_name fn'.length_name (cons.inj h).2
    obtain ⟨rfl, hrest⟩ := serializeNode_append_inj (f := e) (g := e') hf hg h1
    obtain rfl := Function.name_inj hfn
    exact ⟨rfl, hrest⟩
  case extremum.extremum greatest es greatest' es' =>
    simp only [serializeNode, cons_append, append_assoc] at h
    obtain ⟨hgreatest, h1⟩ := cons.inj (cons.inj h).2
    obtain ⟨hlen, h2⟩ := bigEndian_append_inj hf.1 hg.1 h1
    obtain ⟨rfl, hrest⟩ := serializeAll_append_inj hlen hf.2 hg.2 h2
    obtain rfl : greatest = greatest' := by
      cases greatest <;> cases greatest' <;> first | rfl | cases hgreatest
    exact ⟨rfl, hrest⟩
  case call.call n es n' es' =>
    simp only [serializeNode, cons_append, append_assoc] at h
    obtain ⟨rfl, h1⟩ := sizedBytes_append_inj hf.1 hg.1 (cons.inj h).2
    obtain ⟨hlen, h2⟩ := bigEndian_append_inj hf.2.1 hg.2.1 h1
    obtain ⟨rfl, hrest⟩ := serializeAll_append_inj hlen hf.2.2 hg.2.2 h2
    exact ⟨rfl, hrest⟩
  case conditional.conditional c y n c' y' n' =>
    simp only [serializeNode, cons_append, append_assoc] at h
    obtain ⟨rfl, h1⟩ := serializeNode_append_inj hf.1 hg.1 (cons.inj h).2
    obtain ⟨rfl, h2⟩ := serializeNode_append_inj hf.2.1 hg.2.1 h1
    obtain ⟨rfl, hrest⟩ := serializeNode_append_inj hf.2.2 hg.2.2 h2
    exact ⟨rfl, hrest⟩
  case sigma.sigma a b s e a' b' s' e' =>
    simp only [serializeNode, cons_append, append_assoc] at h
    obtain ⟨rfl, h1⟩ := serializeNode_append_inj hf.1 hg.1 (cons.inj h).2
    obtain ⟨rfl, h2⟩ := serializeNode_append_inj hf.2.1 hg.2.1 h1
    obtain ⟨rfl, h3⟩ := serializeNode_append_inj hf.2.2.1 hg.2.2.1 h2
    obtain ⟨rfl, hrest⟩ := serializeNode_append_inj hf.2.2.2 hg.2.2.2 h3
    exact ⟨rfl, hrest⟩
  case fetch.fetch a b | solving.solving a b =>
    rw [serializeNode, serializeNode] at h
    obtain ⟨rfl, hrest⟩ := NameRef.serialize_append_inj hf hg (cons.inj h).2
    exact ⟨rfl, hrest⟩
  case assign.assign a e b e' | item.item a e b e' =>
    simp only [serializeNode, cons_append, append_assoc] at h
    obtain ⟨rfl, h1⟩ := NameRef.serialize_append_inj hf.1 hg.1 (cons.inj h).2
    obtain ⟨rfl, hrest⟩ := serializeNode_append_inj hf.2 hg.2 h1
    exact ⟨rfl, hrest⟩
  case equation.equation n e n' e' =>
    simp only [serializeNode, cons_append, append_assoc] at h
    obtain ⟨rfl, h1⟩ := sizedBytes_append_inj hf.1 hg.1 (cons.inj h).2
    obtain ⟨rfl, hrest⟩ := serializeNode_append_inj hf.2 hg.2 h1
    exact ⟨rfl, hrest⟩
  all_goals simp [kind] at hkind

theorem serializeAll_append_inj : ∀ {es fs : List Form} {r r' : Bytes}, es.length = fs.length →
    ExactAll es → ExactAll fs → serializeAll es ++ r = serializeAll fs ++ r' →
      es = fs ∧ r = r' := by
  intro es fs r r' hlen hes hfs h
  cases es with
  | nil =>
    obtain rfl := length_eq_zero_iff.1 hlen.symm
    exact ⟨rfl, h⟩
  | cons e es =>
    cases fs with
    | nil => cases hlen
    | cons f fs =>
      simp only [serializeAll, append_assoc] at h
      obtain ⟨rfl, h1⟩ := serializeNode_append_inj hes.1 hfs.1 h
      obtain ⟨rfl, hrest⟩ := serializeAll_append_inj (Nat.succ.inj hlen) hes.2 hfs.2 h1
      exact ⟨rfl, hrest⟩

end

theorem serialize_inj (hf : f.Exact) (hg : g.Exact) (h : f.serialize = g.serialize) : f = g := by
  have hnode : f.serializeNode ++ [] = g.serializeNode ++ [] := by
    rw [append_nil, append_nil]
    exact (cons.inj h).2
  exact (serializeNode_append_inj hf hg hnode).1

end Form

end

end Keystroke
