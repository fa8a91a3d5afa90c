import Keystroke.Proofs.Algebra.RoundTrip
import Keystroke.Proofs.Decimal.Sign

set_option autoImplicit false

/-! # Trees that can be compiled

A line holds names of a limited length, the compiler keeps names that start with a parenthesis for
itself, and the machine keeps neither the sign of a zero nor what stands behind a zero byte in the
spelling of a number. None of this gets in the way of trees that are parsed or that solving for a
variable gives (`Expr.proper_of_parse`, `Expr.proper_of_isolate`). -/

namespace Keystroke

variable {compat : Bool} {name text : Bytes} {e : Expr}

/-- A name that a line can hold, and that is none of the compiler's own. -/
structure ProperName (name : Bytes) : Prop where
  short : name.length ≤ maxNameLength
  head : name.head? ≠ some 40

namespace Expr

mutual

/-- The names of the tree are proper, no number is negative zero and no spelling has a zero
    byte. -/
def Proper : Expr → Prop
  | literal _ value text => value.toBits ≠ Binary64.zero true ∧ 0 ∉ text
  | var _ name | fetch _ name | solving _ name => ProperName name
  | unary _ _ e | group _ e | apply _ _ e | tagged _ _ e => e.Proper
  | binary _ _ l r => l.Proper ∧ r.Proper
  | extremum _ _ es => ProperAll es
  | call _ name es => ProperName name ∧ ProperAll es
  | conditional _ c y n => c.Proper ∧ y.Proper ∧ n.Proper
  | assign _ name e | item _ name e _ => ProperName name ∧ e.Proper
  | sigma _ index a b s e => ProperName index ∧ a.Proper ∧ b.Proper ∧ s.Proper ∧ e.Proper

/-- All of several trees are proper. -/
def ProperAll : List Expr → Prop
  | [] => True
  | e :: es => e.Proper ∧ ProperAll es

end

end Expr

/-! ## Numbers and names that can be written -/

theorem Writable.proper (h : Writable compat name) : ProperName name := by
  refine ⟨h.short, ?_⟩
  obtain ⟨b, rest, g, rfl, hg, hends, -⟩ := h.text.exists_start
  rw [List.head?_cons, ne_eq, Option.some_inj]
  rintro rfl
  have hcode : g.code = 40 := by
    exact (congrArg Glyph.code (Option.some_inj.1 hg)).symm
  rw [hcode] at hends
  cases compat <;> exact absurd hends (by decide)

/-- A number is spelled without a minus in front. -/
theorem Denotes.toBits_ne {value : Float} (h : Denotes text value) :
    value.toBits ≠ Binary64.zero true := by
  obtain ⟨bits, hread, rfl⟩ := h.reads
  obtain ⟨b, rest, rfl, -, hstart⟩ := h.isNumber.exists_start
  have hlt : bits.toNat < 2 ^ 63 := by
    refine Decimal.read_lt (b := if b = 44 then 46 else
      if b = 101 || b = exponentByte then 69 else b) ?_ hread
    intro hminus
    split at hminus
    · exact absurd hminus (by decide)
    · split at hminus
      · exact absurd hminus (by decide)
      · subst hminus
        exact absurd hstart (by decide)
  intro hzero
  have := Binary64.toBits_ofBits_lt hlt
  rw [hzero] at this
  exact absurd this (by decide)

/-! ## Trees -/

namespace Expr

mutual

theorem Fits.proper {compat : Bool} : ∀ {r : Rank} {c : Context} {e : Expr},
    e.Fits compat r c → e.Proper
  | _, _, literal _ value text, h => by
    refine ⟨h.toBits_ne, ?_⟩
    cases text with
    | nil => exact List.not_mem_nil
    | cons b text =>
      exact NumberScan.notMem_of_run (s := {}) (.inl rfl) (by simpa using h.isNumber.whole)
  | _, _, var _ _, h | _, _, fetch _ _, h | _, _, solving _ _, h => Writable.proper h
  | _, _, unary _ .not e, h => Fits.proper (e := e) h.2.2.2
  | _, _, unary _ .neg _, ⟨_, h⟩ | _, _, unary _ .pos _, ⟨_, h⟩ => by
    rcases h with ⟨-, h⟩ | ⟨-, h⟩
    · exact h.proper
    · exact h.proper
  | _, _, group _ e, h => Fits.proper (e := e) h
  | _, _, binary _ _ _ _, ⟨_, _, _, _, hl, hr⟩ => ⟨hl.proper, hr.proper⟩
  | _, _, apply _ _ e, h => Fits.proper (e := e) h.2
  | _, _, extremum _ _ _, h => FitsAll.proper h.2
  | _, _, call _ _ _, ⟨hn, _, hes⟩ => ⟨hn.proper, FitsAll.proper hes⟩
  | _, _, conditional _ _ _ _, ⟨hc, hy, hn⟩ => ⟨hc.2.proper, hy.2.proper, hn.2.proper⟩
  | _, _, sigma _ _ _ _ _ _, ⟨hi, ha, hb, hs, he⟩ =>
    ⟨hi.proper, ha.2.proper, hb.2.proper, hs.2.proper, he.2.proper⟩
  | _, _, assign _ _ _, ⟨hn, he⟩ => ⟨hn.proper, he.2.proper⟩
  | _, _, item _ _ _ _, ⟨hn, _, he⟩ => ⟨hn.proper, he.2.proper⟩

theorem FitsAll.proper {compat : Bool} : ∀ {es : List Expr}, FitsAll compat es → ProperAll es
  | [], _ => trivial
  | _ :: _, h => ⟨h.1.2.proper, FitsAll.proper h.2⟩

end

theorem proper_of_parse (h : parse compat text = .ok e) : e.Proper := by
  have hproper := (fitsEquation_of_parse h).untagged.proper
  cases e <;> exact hproper

theorem proper_of_isolate {r : Expr} (h : parse compat text = .ok e) (hr : e.isolate name = .ok r) :
    r.Proper :=
  (numeric_isolate (fitsEquation_of_parse h).untagged hr).fits.proper

end Expr

end Keystroke
