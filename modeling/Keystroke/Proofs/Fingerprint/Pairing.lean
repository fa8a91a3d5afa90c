import Keystroke.Proofs.Fingerprint.Twins

set_option autoImplicit false

/-! # Twin programs

Once its labels are resolved, code with twin lines is two programs whose lines stand in the same
places. Every line that a run can get to has a place: the top of the program, the top of a sum's
subroutine, or within the indices of some sums. Lines in one place do the same, and they lead to
lines that have places again (`Fits`). The programs of two expressions with twin lines are such
twins (`Emitted.Paired.exists_twinCode`). -/

namespace Keystroke

open Code

/-! ## Places -/

/-- Where a line of two programs stands. -/
inductive Place where
  | top
  /-- The first line of a sum's subroutine, which stores its index. -/
  | entry (index : Bytes × Bytes) (σ : Scope)
  /-- A line within the indices of sums, the innermost of which has stored some of its own names. -/
  | within (σ : Scope) (own : List Bytes)

/-- The lines with number `k` do the same, and the lines that they lead to stand where `W` says. -/
inductive Fits (S : Sharing) (W : Nat → Place → Prop) (k : Nat) : Place → Instr → Instr → Prop
  | declare (next : W (k + 1) (.within [] Scope.ownNames)) :
    Fits S W k .top (.withNum .func 11) (.withNum .func 11)
  | index {p q : Bytes} {σ : Scope} (hp : ProperName p) (hq : ProperName q)
      (next : W (k + 1) (.within ((p, q) :: σ) [])) :
    Fits S W k (.entry (p, q) σ) (.withName .lsto p) (.withName .lsto q)
  | calculate {σ : Scope} {own : List Bytes} {i i' : Instr} (hc : i'.command = i.command)
      (ho : i'.operand = i.operand) (h : S.Admits i) (next : W (k + 1) (.within σ own)) :
    Fits S W k (.within σ own) i i'
  | named {σ : Scope} {own : List Bytes} {c : Command} {a b : Bytes}
      (hc : c ∈ [.rcl, .sto, .stoAdd, .stoSubtract])
      (h : σ.Seen (fun n => c ≠ .sto → S.Real n) own a b) (next : W (k + 1) (.within σ own)) :
    Fits S W k (.within σ own) (.withName c a) (.withName c b)
  | stored {σ : Scope} {own : List Bytes} {name : Bytes} (hσ : σ ≠ []) (h : name ∈ Scope.ownNames)
      (next : W (k + 1) (.within σ (own ++ [name]))) :
    Fits S W k (.within σ own) (.withName .lsto name) (.withName .lsto name)
  | test {σ : Scope} {own : List Bytes} (next : W (k + 1) (.within σ own))
      (skip : W (k + 2) (.within σ own)) :
    Fits S W k (.within σ own) (.plain .ifTrue) (.plain .ifTrue)
  | goto {σ : Scope} {own : List Bytes} {n : Nat} {m : Int32} (hm : m.toInt = n + 1)
      (there : W n (.within σ own)) :
      Fits S W k (.within σ own) (.withNum .gtol m) (.withNum .gtol m)
  | call {σ : Scope} {index : Bytes × Bytes} {n : Nat} {m : Int32} (hm : m.toInt = n + 1)
      (there : W n (.entry index σ)) (back : W (k + 1) (.within σ Scope.ownNames)) :
    Fits S W k (.within σ Scope.ownNames) (.withNum .xeql m) (.withNum .xeql m)
  | leave {σ : Scope} {own : List Bytes} : Fits S W k (.within σ own) (.plain .rtn) (.plain .rtn)

/-- Two programs whose lines fit each other. -/
structure Job.Twin (S : Sharing) (W : Nat → Place → Prop) (j1 j2 : Job) : Prop where
  /-- Errors in the same line belong together. -/
  errors : ∀ {e : Error} (n : Nat) (c : Command), S.Errors e e →
    S.Errors (.atLine j1.ref n c e) (.atLine j2.ref n c e)
  top : W 0 .top
  line : ∀ k p, W k p → ∃ i1 i2, j1.Has k i1 ∧ j2.Has k i2 ∧ Fits S W k p i1 i2

/-! ## Twin code -/

/-- Two programs with resolved labels, and the subroutines in them. -/
structure TwinCode where
  code1 : List Instr
  code2 : List Instr
  lineOf1 : Nat → Nat
  lineOf2 : Nat → Nat
  subs : List TwinSub

namespace TwinCode

variable {S : Sharing} {t : TwinCode} {σ : Scope} {marks left right : List CodeLine}
  {own : List Bytes} {k : Nat}

/-- Twin lines stand in both programs from line `k` on, with a return behind them. -/
structure Rest (S : Sharing) (t : TwinCode) (σ : Scope) (marks : List CodeLine) (own : List Bytes)
    (k : Nat) (left right : List CodeLine) : Prop where
  lines : TwinLines S σ marks t.subs own left right
  laid1 : Code.Laid t.code1 t.lineOf1 k (left ++ [returnLine])
  laid2 : Code.Laid t.code2 t.lineOf2 k (right ++ [returnLine])

/-- The labels stand in front of twin lines in both programs. -/
def Marked (S : Sharing) (t : TwinCode) (σ : Scope) (marks labels : List CodeLine) : Prop :=
  ∀ id, .label id ∈ labels → ∃ n left right, t.lineOf1 id = n + 1 ∧ t.lineOf2 id = n + 1 ∧
    t.Rest S σ marks Scope.ownNames n left right

/-- A subroutine starts at line `b` in both programs. -/
structure Entry (S : Sharing) (t : TwinCode) (u : TwinSub) (b : Nat) : Prop where
  label1 : t.lineOf1 u.id = b + 1
  label2 : t.lineOf2 u.id = b + 1
  index1 : t.code1[b]? = some (.withName .lsto u.index.1)
  index2 : t.code2[b]? = some (.withName .lsto u.index.2)
  left_proper : ProperName u.index.1
  right_proper : ProperName u.index.2
  body : t.Rest S u.scope u.left [] (b + 1) u.left u.right

/-- The programs are whole: each has its declaration, its main lines and its subroutines, and lines
    can be numbered. -/
structure Whole (S : Sharing) (t : TwinCode) : Prop where
  func1 : t.code1[0]? = some (.withNum .func 11)
  func2 : t.code2[0]? = some (.withNum .func 11)
  main : ∃ left right, t.Rest S [] left Scope.ownNames 1 left right
  entry : ∀ u ∈ t.subs, ∃ b, t.Entry S u b
  short : t.code1.length < 2147483647

/-- The place of a line. -/
def At (S : Sharing) (t : TwinCode) (k : Nat) : Place → Prop
  | .top => k = 0
  | .entry index σ => ∃ u ∈ t.subs, u.index = index ∧ u.outer = σ ∧ t.Entry S u k
  | .within σ own => ∃ marks left right, t.Rest S σ marks own k left right ∧
    t.Marked S σ marks marks

theorem Rest.marked (h : t.Rest S σ marks own k left right) : t.Marked S σ marks left := by
  intro id hid
  obtain ⟨hlines, h1, h2⟩ := h
  induction hlines generalizing k with
  | nil => cases hid
  | label id' htail ih =>
    rcases List.mem_cons.1 hid with heq | hid
    · obtain rfl := CodeLine.label.inj heq
      exact ⟨k, _, _, h1.1, h2.1, htail, h1.2, h2.2⟩
    · exact ih hid h1.2 h2.2
  | calculate _ _ _ _ ih | named _ _ _ ih | stored _ _ _ ih | goto _ _ ih | call _ _ _ ih
  | test _ ih => exact ih (by simpa using hid) h1.2 h2.2

theorem Rest.at (h : t.Rest S σ left own k left right) : t.At S k (.within σ own) :=
  ⟨_, _, _, h, h.marked⟩

theorem Rest.lt_length (h : t.Rest S σ marks own k left right) : k < t.code1.length := by
  have hwidth := width_append left [returnLine]
  have hone : width [returnLine] = 1 := rfl
  have hle := h.laid1.le (by omega)
  omega

/-- A line of the programs, as it is stored, and its twin. -/
def FitsAt (S : Sharing) (t : TwinCode) (k : Nat) (p : Place) : Prop :=
  ∃ i1 i2, t.code1[k]? = some i1 ∧ t.code2[k]? = some i2 ∧ Fits S (t.At S) k p i1.stored i2.stored

theorem Whole.toInt_ofNat (h : t.Whole S) {n : Nat} (hn : n < t.code1.length) :
    (Int32.ofNat (n + 1)).toInt = n + 1 := by
  have hshort := h.short
  have hword : Int32.size = 4294967296 := rfl
  rw [Int32.toInt_ofNat', Int.bmod_eq_of_le] <;> omega

theorem Whole.fitsAt_within (hw : t.Whole S) (h : t.Rest S σ marks own k left right)
    (hmarks : t.Marked S σ marks marks) : t.FitsAt S k (.within σ own) := by
  obtain ⟨hlines, h1, h2⟩ := h
  induction hlines with
  | nil =>
    refine ⟨_, _, h1.1, h2.1, ?_⟩
    exact .leave
  | label _ _ ih => exact ih h1.2 h2.2
  | calculate hc ho hi h =>
    exact ⟨_, _, h1.1, h2.1, .calculate hc ho hi ⟨_, _, _, ⟨h, h1.2, h2.2⟩, hmarks⟩⟩
  | @named _ c a b _ _ hc hab h =>
    have hne : c ≠ .number := by
      rintro rfl
      exact absurd hc (by decide)
    refine ⟨_, _, h1.1, h2.1, ?_⟩
    rw [Instr.stored_withName hne, Instr.stored_withName hne]
    exact .named hc hab ⟨_, _, _, ⟨h, h1.2, h2.2⟩, hmarks⟩
  | stored hσ hname h =>
    refine ⟨_, _, h1.1, h2.1, ?_⟩
    exact .stored hσ hname ⟨_, _, _, ⟨h, h1.2, h2.2⟩, hmarks⟩
  | goto hk h =>
    obtain ⟨n, _, _, hn1, hn2, hrest⟩ := hmarks _ hk
    refine ⟨_, _, h1.1, h2.1, ?_⟩
    rw [Instr.stored_withNum (by decide), Instr.stored_withNum (by decide), Int.toNat_natCast, hn1,
      hn2]
    exact .goto (hw.toInt_ofNat hrest.lt_length) ⟨_, _, _, hrest, hmarks⟩
  | @call u _ _ hu hσ h =>
    obtain ⟨n, hentry⟩ := hw.entry u hu
    have hn := (List.getElem?_eq_some_iff.1 hentry.index1).1
    refine ⟨_, _, h1.1, h2.1, ?_⟩
    rw [Instr.stored_withNum (by decide), Instr.stored_withNum (by decide), Int.toNat_natCast,
      hentry.label1, hentry.label2]
    exact .call (hw.toInt_ofNat hn) ⟨u, hu, rfl, hσ, hentry⟩ ⟨_, _, _, ⟨h, h1.2, h2.2⟩, hmarks⟩
  | test h =>
    refine ⟨_, _, h1.1, h2.1, ?_⟩
    refine .test ⟨_, _, _, ⟨h, h1.2, h2.2⟩, hmarks⟩ ⟨_, _, _, ⟨?_, h1.2.2, h2.2.2⟩, hmarks⟩
    cases h with
    | goto _ h | call _ _ h => exact h

theorem Whole.fitsAt (hw : t.Whole S) {p : Place} (h : t.At S k p) : t.FitsAt S k p := by
  cases p with
  | top =>
    obtain rfl : k = 0 := h
    obtain ⟨left, right, hrest⟩ := hw.main
    refine ⟨_, _, hw.func1, hw.func2, ?_⟩
    exact .declare hrest.at
  | entry index σ =>
    obtain ⟨u, -, rfl, rfl, hentry⟩ := h
    refine ⟨_, _, hentry.index1, hentry.index2, ?_⟩
    exact .index hentry.left_proper hentry.right_proper hentry.body.at
  | within σ own =>
    obtain ⟨marks, left, right, hrest, hmarks⟩ := h
    exact hw.fitsAt_within hrest hmarks

theorem Whole.twin (hw : t.Whole S) {j1 j2 : Job}
    (herrors : ∀ {e : Error} (n : Nat) (c : Command), S.Errors e e →
      S.Errors (.atLine j1.ref n c e) (.atLine j2.ref n c e))
    (h1 : j1.Hosts t.code1) (h2 : j2.Hosts t.code2) : j1.Twin S (t.At S) j2 where
  errors := herrors
  top := rfl
  line := fun k p hk => by
    obtain ⟨i1, i2, hi1, hi2, hfits⟩ := hw.fitsAt hk
    exact ⟨_, _, h1.has k i1 hi1, h2.has k i2 hi2, hfits⟩

end TwinCode

/-! ## The programs of expressions -/

section

variable {code1 code2 : List Instr} {lineOf1 lineOf2 : Nat → Nat}

/-- Twin subroutines behind returns start at the same lines. -/
theorem Code.laid_twinSubs {a : Nat} (subs : List TwinSub)
    (hsubs : ∀ u ∈ subs, width u.left = width u.right)
    (h1 : Laid code1 lineOf1 a
      ((subs.map fun u => u.linesWith u.index.1 u.left).flatMap (returnLine :: ·) ++ [returnLine]))
    (h2 : Laid code2 lineOf2 a
      ((subs.map fun u => u.linesWith u.index.2 u.right).flatMap (returnLine :: ·) ++
        [returnLine])) :
    code1[a]? = some (.plain .rtn) ∧ code2[a]? = some (.plain .rtn) ∧
      ∀ u ∈ subs, ∃ b, Laid code1 lineOf1 b (u.linesWith u.index.1 u.left ++ [returnLine]) ∧
        Laid code2 lineOf2 b (u.linesWith u.index.2 u.right ++ [returnLine]) := by
  induction subs generalizing a with
  | nil => exact ⟨h1.1, h2.1, by simp⟩
  | cons u subs ih =>
    rw [List.map_cons, List.flatMap_cons, List.append_assoc, List.cons_append] at h1 h2
    obtain ⟨hret1, hrest1⟩ := h1
    obtain ⟨hret2, hrest2⟩ := h2
    obtain ⟨hsub1, hmore1⟩ := (laid_append _ _).1 hrest1
    obtain ⟨hsub2, hmore2⟩ := (laid_append _ _).1 hrest2
    have hwidth : width (u.linesWith u.index.2 u.right) = width (u.linesWith u.index.1 u.left) := by
      simp only [TwinSub.linesWith, width, hsubs u List.mem_cons_self]
    rw [hwidth] at hmore2
    obtain ⟨hnext1, hnext2, hall⟩ :=
      ih (fun v hv => hsubs v (List.mem_cons_of_mem _ hv)) hmore1 hmore2
    refine ⟨hret1, hret2, fun v hv => ?_⟩
    rcases List.mem_cons.1 hv with rfl | hv
    · exact ⟨a + 1, (laid_append _ _).2 ⟨hsub1, hnext1, trivial⟩,
        (laid_append _ _).2 ⟨hsub2, by rw [hwidth]; exact hnext2, trivial⟩⟩
    · exact hall v hv

end

theorem Emitted.Paired.exists_twinCode {S : Sharing} {names : NameTable} {e1 e2 : Expr}
    {code1 code2 : List Instr} (h : (e1.emitted names 0).Paired S [] (e2.emitted names 0))
    (h1 : (e1.program names).resolve = .ok code1) (h2 : (e2.program names).resolve = .ok code2)
    (hshort : code1.length < 2147483647) :
    ∃ t : TwinCode, t.code1 = code1 ∧ t.code2 = code2 ∧ t.Whole S := by
  obtain ⟨-, subs, hsubs1, hsubs2, hmain, hsound⟩ := h
  obtain ⟨m1, hordered1⟩ := e1.ordered_lines names
  obtain ⟨m2, hordered2⟩ := e2.ordered_lines names
  have hlaid1 := laid_instrs hordered1 [] (e1.program names).lines rfl
  have hlaid2 := laid_instrs hordered2 [] (e2.program names).lines rfl
  rw [Expr.resolve_eq, Except.ok.injEq] at h1 h2
  generalize lineIn (e1.program names).lines = lineOf1 at h1 hlaid1
  generalize lineIn (e2.program names).lines = lineOf2 at h2 hlaid2
  rw [h1, Expr.lines_program, hsubs1] at hlaid1
  rw [h2, Expr.lines_program, hsubs2] at hlaid2
  obtain ⟨hfunc1, hrest1⟩ := hlaid1
  obtain ⟨hfunc2, hrest2⟩ := hlaid2
  obtain ⟨hstream1, hbehind1⟩ := (laid_append _ _).1 hrest1
  obtain ⟨hstream2, hbehind2⟩ := (laid_append _ _).1 hrest2
  rw [← hmain.width_eq] at hbehind2
  obtain ⟨hret1, hret2, hentries⟩ := laid_twinSubs subs
    (fun u hu => (hsound u hu).lines.width_eq) hbehind1 hbehind2
  refine ⟨⟨code1, code2, lineOf1, lineOf2, subs⟩, rfl, rfl, hfunc1, hfunc2,
    ⟨_, _, hmain, ?_, ?_⟩, ?_, hshort⟩
  · exact (laid_append _ _).2 ⟨hstream1, hret1, trivial⟩
  · refine (laid_append _ _).2 ⟨hstream2, ?_, trivial⟩
    rw [← hmain.width_eq]
    exact hret2
  · intro u hu
    obtain ⟨b, hb1, hb2⟩ := hentries u hu
    have hu := hsound u hu
    exact ⟨b, hb1.1, hb2.1, hb1.2.1, hb2.2.1, hu.left_proper, hu.right_proper, hu.lines, hb1.2.2,
      hb2.2.2⟩

end Keystroke
