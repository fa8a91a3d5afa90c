import Keystroke.Proofs.Store.Request

set_option autoImplicit false

/-! # The targets that jumps keep

A jump keeps the target that was looked up for it until lines are put in or taken out. Which target
a lookup gives depends on the lines of the program, but not on the targets that they keep
(`targetIn_congr`), so a target stays right while other targets are looked up, and targets are all
forgotten when the lines change. During a bulk load they may be wrong; its end forgets them. -/

namespace Keystroke

open List

/-! ## Lookups on lines -/

/-- The target of a jump behind the lines `front`, which it is the last of. -/
def targetIn (strict : Bool) (front back : List Line) (i : Instr) : Int32 :=
  if i.command = .gtol || i.command = .xeql then
    .ofInt (if i.operand.num.toInt = 0 then -1
      else (passed (i.operand.num.toInt - 1).toNat (front ++ back ++ [Line.endLine]) : Int))
  else labelTarget ((labelAt? strict i.operand (textOf front).length back).or
    (labelAt? strict i.operand 0 front))

section

variable (strict : Bool) {ls ms front back : List Line} {l : Line}

theorem freshTarget_textOf (i : Instr) :
    freshTarget strict (textOf (front ++ l :: back ++ [Line.endLine])) (textOf front).length i
      l.size = .ok (targetIn strict (front ++ [l]) back i) := by
  have hlines : front ++ l :: back ++ [Line.endLine] = front ++ [l] ++ back ++ [Line.endLine] := by
    simp
  have hstart : (textOf front).length + l.size = (textOf (front ++ [l])).length := by
    simp [Line.size]
  have hend : ∃ m ∈ front ++ [l] ++ back ++ [Line.endLine], m.isEnd = true :=
    ⟨Line.endLine, by simp, by simp⟩
  rw [hlines, freshTarget, targetIn, hstart]
  split
  · rw [lineOffset_textOf _ hend]
    rfl
  · exact findLocal_textOf strict i.operand (front ++ [l]) back

/-- A jump to a line leads to the offset of the line with that number, counted from one. -/
theorem toInt_targetIn {i : Instr} {n : Nat} (hc : i.command = .gtol ∨ i.command = .xeql)
    (hn : i.operand.num.toInt = n + 1) (hls : front ++ back = ls)
    (hend : ∀ l ∈ ls, l.isEnd = false) (hshort : (textOf ls).length < 2147483648) :
    (targetIn strict front back i).toInt = (textOf (ls.take n)).length := by
  have hsplit := congrArg length (textOf_append (ls.take n) (ls.drop n))
  rw [take_append_drop, length_append] at hsplit
  have hne : ¬ i.operand.num.toInt = 0 := by omega
  have hnat : (i.operand.num.toInt - 1).toNat = n := by omega
  have hword : Int32.size = 4294967296 := rfl
  rw [targetIn, if_pos (by simpa using hc), if_neg hne, hnat, hls, passed_endLine ls hend,
    Int32.toInt_ofInt, Int.bmod_eq_of_le] <;> omega

/-- The line at an offset, a jump whose target is not known, is read after a lookup. -/
theorem Store.resolveTarget_of_jump {s : Store} {ref : ProgramRef} {p : Program}
    (hp : s.program? ref = some p) (hl : p.Holds (front ++ l :: back))
    (hnear : ((textOf front).length : Int) ≤ maxOffset) (hneg : l.header.isNegativeJump = false)
    (hc : l.header.cached = true) (hu : l.target = targetUnknown) :
    resolveTarget ref (textOf front).length s =
      let t := targetIn s.options.strictLabels (front ++ [l]) back l.instr
      .ok (l.instr.withTarget t, l.size) (s.setProgram ref
        (p.withText (textOf (front ++ l.withTarget t :: back ++ [Line.endLine])) false)) := by
  have htext := hl.textAt
  have hfresh := @freshTarget_textOf s.options.strictLabels front back l l.instr
  rw [← hl.text] at hfresh
  have hwrite := writeTarget_append (textOf front) (textOf (back ++ [Line.endLine]))
    (targetIn s.options.strictLabels (front ++ [l]) back l.instr) hc
  rw [← htext] at hwrite
  rw [resolveTarget_of_unknown hp htext hnear (by rw [Line.hasJumpCache_instr hneg, hc]) hu, hfresh]
  simp only [hwrite]
  simp

theorem targetIn_clearAll (front back : List Line) (i : Instr) :
    targetIn strict (clearAll front) (clearAll back) i = targetIn strict front back i := by
  have hpassed : ∀ n, passed n (clearAll front ++ clearAll back ++ [Line.endLine])
      = passed n (front ++ back ++ [Line.endLine]) := by
    intro n
    rw [← passed_clearAll n (front ++ back ++ [Line.endLine]), clearAll_append, clearAll_append,
      clearAll_endLine]
  simp only [targetIn, hpassed, labelAt?_clearAll, length_textOf_clearAll]

/-- What the search asks for does not depend on the target that is kept beside it. -/
theorem labelAt?_target (arg : Operand) (t : Int32) (pc : Nat) (ls : List Line) :
    labelAt? strict { arg with target := t } pc ls = labelAt? strict arg pc ls := by
  induction ls generalizing pc with
  | nil => rfl
  | cons l ls ih =>
    rw [labelAt?, labelAt?, ih]
    rfl

theorem targetIn_withTarget (front back : List Line) (i : Instr) (t : Int32) :
    targetIn strict front back (i.withTarget t) = targetIn strict front back i := by
  simp only [targetIn, Instr.withTarget, labelAt?_target]
  rfl

theorem targetIn_congr (h : clearAll ls = clearAll ms) (n : Nat) (i : Instr) :
    targetIn strict (ls.take n) (ls.drop n) i = targetIn strict (ms.take n) (ms.drop n) i := by
  rw [← targetIn_clearAll strict (ls.take n), ← targetIn_clearAll strict (ms.take n)]
  simp only [clearAll, map_take, map_drop] at h ⊢
  rw [h]

theorem targetIn_middle (i : Instr) :
    targetIn strict ((front ++ l :: back).take (front.length + 1))
      ((front ++ l :: back).drop (front.length + 1)) i = targetIn strict (front ++ [l]) back i := by
  have htake : (front ++ l :: back).take (front.length + 1) = front ++ [l] := by
    simp [take_append]
  have hdrop : (front ++ l :: back).drop (front.length + 1) = back := by simp [drop_append]
  rw [htake, hdrop]

/-! ## Coherent lines -/

/-- Every target that is known is the one that a lookup gives. -/
def Coherent (ls : List Line) : Prop :=
  ∀ k l, ls[k]? = some l → l.target ≠ targetUnknown →
    targetIn strict (ls.take (k + 1)) (ls.drop (k + 1)) l.instr = l.target

theorem Line.target_clear (l : Line) : (l.withTarget targetUnknown).target = targetUnknown := by
  cases hc : l.header.cached with
  | false => exact target_of_not_cached (by simpa using hc)
  | true => exact target_withTarget _ hc

theorem target_of_clear (h : clearAll ls = ls) (hl : l ∈ ls) : l.target = targetUnknown := by
  rw [← h] at hl
  obtain ⟨m, -, rfl⟩ := mem_map.1 hl
  exact m.target_clear

theorem coherent_of_clear (h : clearAll ls = ls) : Coherent strict ls :=
  fun _ _ hl hu => absurd (target_of_clear h (mem_of_getElem? hl)) hu

/-- A target that was looked up is the one that a lookup gives, and no other becomes wrong. -/
theorem Coherent.set {t : Int32} (h : Coherent strict (front ++ l :: back))
    (hc : l.header.cached = true)
    (ht : targetIn strict (front ++ [l]) back l.instr = t) :
    Coherent strict (front ++ l.withTarget t :: back) := by
  have hclear : clearAll (front ++ l.withTarget t :: back) = clearAll (front ++ l :: back) := by
    simp
  intro k m hm hu
  rw [targetIn_congr strict hclear]
  rcases lt_trichotomy k front.length with hk | rfl | hk
  · rw [getElem?_append_left hk] at hm
    exact h k m (by rw [getElem?_append_left hk, hm]) hu
  · have hm' : l.withTarget t = m := by simpa using hm
    subst hm'
    rw [targetIn_middle, Line.instr_withTarget t hc, targetIn_withTarget, ht,
      Line.target_withTarget t hc]
  · obtain ⟨j, rfl⟩ : ∃ j, k = front.length + (j + 1) := ⟨k - front.length - 1, by omega⟩
    refine h _ m ?_ hu
    rw [getElem?_append_right (by omega), Nat.add_sub_cancel_left] at hm ⊢
    exact hm

end

/-! ## Coherent programs -/

/-- The program is a list of lines without jumps to negative labels. If it is marked so, all targets
    are unknown, and outside bulk loads those that are known are right. -/
structure Program.Current (strict : Bool) (loading : Nat) (p : Program) : Prop where
  lines : ∃ ls, p.Holds ls ∧ (∀ l ∈ ls, l.header.isNegativeJump = false) ∧
    (p.cachesClear = true → clearAll ls = ls) ∧ (loading = 0 → Coherent strict ls)

/-- Lines with which the targets of jumps stay right: numbers are spelled without a zero byte and no
    jump goes to a negative label. -/
def navigating : Rules where
  line i := i.hasZeroByte = false ∧ i.goesToNegative = false
  lookups := True

section

variable {strict : Bool} {n : Nat} {p p' : Program} {ls : List Line}

theorem Program.Current.facts (h : p.Current strict n) (hl : p.Holds ls) :
    (∀ l ∈ ls, l.header.isNegativeJump = false) ∧
      (p.cachesClear = true → clearAll ls = ls) ∧ (n = 0 → Coherent strict ls) := by
  obtain ⟨ms, hms, hfacts⟩ := h.lines
  rwa [hl.unique hms]

theorem isNegativeJump_clearAll (h : ∀ l ∈ ls, l.header.isNegativeJump = false) :
    ∀ l ∈ clearAll ls, l.header.isNegativeJump = false := by
  intro l hl
  obtain ⟨m, hm, rfl⟩ := mem_map.1 hl
  rw [Line.header_withTarget]
  exact h m hm

/-- After an edit targets are unknown, unless a bulk load is open. -/
theorem Program.Settled.current (h : p.Settled n ls p')
    (hneg : ∀ l ∈ ls, l.header.isNegativeJump = false)
    (hclear : p.cachesClear = true → clearAll ls = ls) : p'.Current strict n := by
  refine ⟨_, h.holds, ?_⟩
  by_cases hn : n = 0
  · have hlines : clearAll (if n = 0 ∧ p.cachesClear = false then clearAll ls else ls)
        = if n = 0 ∧ p.cachesClear = false then clearAll ls else ls := by
      split
      · exact clearAll_clearAll ls
      · next hflag => exact hclear (by simpa [hn] using hflag)
    refine ⟨?_, fun _ => hlines, fun _ => coherent_of_clear strict hlines⟩
    split
    · exact isNegativeJump_clearAll hneg
    · exact hneg
  · rw [if_neg (by simp [hn])]
    refine ⟨hneg, fun hflag => hclear ?_, fun h0 => absurd h0 hn⟩
    simpa [h.clear, hn] using hflag

theorem Store.Cleared.current {r : Nat} {g : Bool} (h : Store.Cleared ls r g p')
    (hneg : ∀ l ∈ ls, l.header.isNegativeJump = false) : p'.Current strict n :=
  ⟨_, h.holds, isNegativeJump_clearAll hneg, fun _ => clearAll_clearAll ls,
    fun _ => coherent_of_clear strict (clearAll_clearAll ls)⟩

end

theorem stable_current (strict : Bool) : Stable navigating strict (Program.Current strict) where
  holds h := by
    obtain ⟨ls, hls, -⟩ := h.lines
    exact ⟨ls, hls⟩
  resolved {s line line'} h hline := by
    unfold Store.resolved? at hline
    split at hline
    · obtain ⟨name, -, rfl⟩ := Option.map_eq_some_iff.1 hline
      exact ⟨h.1, by simp [Instr.goesToNegative]⟩
    · obtain rfl := Option.some.inj hline
      exact h
  empty h := ⟨[], Program.holds_nil h.text, by simp, by simp, fun _ => coherent_of_clear strict rfl⟩
  spelled h := by simpa [Instr.hasZeroByte] using h.1
  inserted {n p p' front back line l} h hl hline _ hwrites hp' := by
    obtain ⟨hneg, hclear, -⟩ := h.facts hl
    refine hp'.current (forall_mem_put ?_ hneg) ?_
    · rw [hwrites.header, Instr.isNegativeJump_storedHeader, hline.2]
    · intro hflag
      have hl' : l.withTarget targetUnknown = l := by
        rw [← hwrites.target, Line.withTarget_target]
      have hrest := hclear hflag
      simp only [clearAll_append, clearAll_cons, hl'] at hrest ⊢
      obtain ⟨hfront, hback⟩ := append_inj hrest (by simp)
      rw [hfront, hback]
  deleted {n p p' front back l} h hl hp' := by
    obtain ⟨hneg, hclear, -⟩ := h.facts hl
    refine hp'.current (forall_mem_cut hneg) fun hflag => ?_
    have hrest := hclear hflag
    simp only [clearAll_append, clearAll_cons] at hrest ⊢
    obtain ⟨hfront, hback⟩ := append_inj hrest (by simp)
    rw [hfront, (cons.inj hback).2]
  cleared {n r g p' ls} h hp' := by
    refine hp'.current fun l hl => ?_
    obtain ⟨m, q, ms, hq, hms, hmem⟩ := h l hl
    exact (hq.facts hms).1 l hmem
  opened {n m p} h := by
    obtain ⟨ls, hls, hneg, hclear, -⟩ := h.lines
    exact ⟨ls, hls, hneg, hclear, fun h0 => absurd h0 (by omega)⟩
  lookedUp {n p front back l t} _ h hl hc hu hfresh := by
    obtain ⟨hneg, hclear, hcoherent⟩ := h.facts hl
    have hcached : l.header.cached = true := by
      rw [← Line.hasJumpCache_instr (hneg l (by simp))]
      exact hc
    rw [hl.text, freshTarget_textOf] at hfresh
    refine ⟨hcached, ⟨front ++ l.withTarget t :: back, hl.withTarget t false,
      forall_mem_put ?_ (forall_mem_cut hneg), ?_, ?_⟩⟩
    · rw [Line.header_withTarget]
      exact hneg l (by simp)
    · exact fun hflag => absurd hflag (by simp [Program.withText])
    · exact fun h0 => (hcoherent h0).set strict hcached (Except.ok.inj hfresh)

/-! ## Stores that requests lead to -/

/-- Outside bulk loads every target that is known is the one that a search of the program as it is
    gives, and a program that is marked so knows no target. -/
theorem Reachable.targets_current {options : Options} {s : Store} {ref : ProgramRef} {p : Program}
    {k pc size : Nat} {line : Instr} (h : Reachable navigating options s)
    (hp : s.program? ref = some p) (hat : LineAt p.buffer.text k pc)
    (hline : decodeAt p.buffer.text pc = .ok (line, size)) :
    (s.loading = 0 → line.operand.target ≠ targetUnknown →
      freshTarget s.options.strictLabels p.buffer.text pc line size = .ok line.operand.target) ∧
    (p.cachesClear = true → line.operand.target = targetUnknown) := by
  obtain ⟨hs, ho⟩ := h.sound (stable_current options.strictLabels)
  have hstrict : s.options.strictLabels = options.strictLabels := by rw [ho]; rfl
  have hoff : (pc : Int) ≤ maxOffset := by
    by_contra hlt
    rw [decodeAt, if_pos (by omega)] at hline
    exact absurd hline (by simp)
  obtain ⟨ls, hls, hneg, hclear, hcoherent⟩ := (hs.program? hp).1.lines
  rcases Store.lineAt_cases hls hat with ⟨rfl, rfl⟩ | ⟨front, l, back, rfl, rfl, rfl⟩
  · have hdecode := decodeAt_line hls.textEnd hoff
    obtain ⟨rfl, rfl⟩ := Prod.mk.inj (Except.ok.inj (hline.symm.trans hdecode))
    exact ⟨fun _ hu => absurd rfl hu, fun _ => rfl⟩
  · have hdecode := decodeAt_line hls.textAt hoff
    obtain ⟨rfl, rfl⟩ := Prod.mk.inj (Except.ok.inj (hline.symm.trans hdecode))
    constructor
    · intro hload hu
      have hright := hcoherent hload front.length l (by simp) hu
      rw [targetIn_middle] at hright
      rw [hls.text, freshTarget_textOf, hstrict, hright]
      rfl
    · exact fun hflag => target_of_clear (hclear hflag) (by simp)

/-- A store with one program, all of whose buffer was allocated at the start. -/
def storeOf (text : Bytes) (cachesClear : Bool) (edits : Nat) : Store where
  options := {}
  programs := [{ buffer := ⟨text, [], 64 - text.length⟩, cachesClear := cachesClear }]
  labels := [⟨none, 0, text.length - endBytes.length⟩]
  used := 64
  edits := edits

/-- A jump to the label behind it. -/
def jumpToNext (target : Int32) : Bytes := 0x8F :: 1 :: targetBytes target ++ [0x81, 0x5C, 1, 0x81]

theorem reachable_jumpToNext {rules : Rules} (hlook : rules.lookups)
    (hjump : rules.line (.withNum .gto 1)) (hlabel : rules.line (.withNum .lbl 1)) :
    Reachable rules {} (storeOf (jumpToNext 7 ++ endBytes) false 2) := by
  have hnew : Store.new {} = .ok (storeOf endBytes false 0) := by cbv
  have hinsert : (Request.insert (.user 0) 0 (.withNum .gto 1)).run (storeOf endBytes false 0)
      = .ok (.program (.user 0))
        (storeOf ([0x8F, 1, 0xFF, 0xFF, 0xFF, 0xFF, 0x81] ++ endBytes) true 1) := by decide +kernel
  have hinsert' : (Request.insert (.user 0) 7 (.withNum .lbl 1)).run
      (storeOf ([0x8F, 1, 0xFF, 0xFF, 0xFF, 0xFF, 0x81] ++ endBytes) true 1)
      = .ok (.program (.user 0)) (storeOf (jumpToNext targetUnknown ++ endBytes) true 2) := by
        decide +kernel
  have hresolve : (Request.resolve (.user 0) 0).run
      (storeOf (jumpToNext targetUnknown ++ endBytes) true 2)
      = .ok (.read ((Instr.withNum .gto 1).withTarget 7) 7)
        (storeOf (jumpToNext 7 ++ endBytes) false 2) := by decide +kernel
  refine .ok (.ok (.ok (.new hnew) ?_ hinsert) ?_ hinsert') ?_ hresolve
  · exact ⟨⟨some 0, _, 0, rfl, by decide, rfl⟩, hjump⟩
  · exact ⟨⟨some 1, _, 7, rfl, by decide, rfl⟩, hlabel⟩
  · exact ⟨hlook, some 0, _, 0, rfl, by decide, rfl⟩

/-- The jump keeps the offset of the label behind it, and a search finds the label there. -/
theorem jumpToNext_target_current :
    let text := jumpToNext 7 ++ endBytes
    let line := (Instr.withNum .gto 1).withTarget 7
    Reachable navigating {} (storeOf text false 2) ∧ decodeAt text 0 = .ok (line, 7) ∧
      freshTarget false text 0 line 7 = .ok 7 := by
  intro text line
  have h : Reachable navigating {} (storeOf text false 2) :=
    reachable_jumpToNext trivial ⟨by decide, by decide⟩ ⟨by decide, by decide⟩
  have hat : LineAt text 0 0 := by decide
  have hline : decodeAt text 0 = .ok (line, 7) := by decide
  have hp : (storeOf text false 2).program? (.user 0)
      = some { buffer := ⟨text, [], 52⟩, cachesClear := false } := rfl
  exact ⟨h, hline, (Reachable.targets_current h hp hat hline).1 rfl (by decide)⟩

/-- Without the rule on spellings targets go stale. The bytes behind a zero byte are read as lines:
    one number hides the jump from the first edit, which marks the program as one without known
    targets, and the second number lets it reappear with the target that it had. -/
theorem stale_target_behind_zero_byte :
    let rules : Rules := { line := fun i => i.goesToNegative = false, lookups := True }
    ∃ s p line, Reachable rules {} s ∧ s.loading = 0 ∧ s.program? (.user 0) = some p ∧
      LineAt p.buffer.text 2 32 ∧ decodeAt p.buffer.text 32 = .ok (line, 7) ∧
      line.operand.target = 7 ∧ freshTarget false p.buffer.text 32 line 7 = .ok 39 ∧
      p.cachesClear = true := by
  intro rules
  let number (last : UInt8) : Instr :=
    ⟨.number, { kind := .real, value := 0x3FF8000000000000 }, [0x31, 0, 8, 4, last]⟩
  let code (last : UInt8) : Bytes := [0x91, 0x89, 0, 0, 0, 0, 0, 0, 0xF8, 0x3F, 0x31, 0, 8, 4,
    last, 0]
  have h : Reachable rules {} (storeOf (jumpToNext 7 ++ endBytes) false 2) :=
    reachable_jumpToNext trivial (by decide) (by decide)
  have hfirst : (Request.insert (.user 0) (-1) (number 0xFF)).run
      (storeOf (jumpToNext 7 ++ endBytes) false 2)
      = .ok (.program (.user 0)) (storeOf (code 0xFF ++ jumpToNext 7 ++ endBytes) true 3) := by
        decide +kernel
  have hsecond : (Request.insert (.user 0) (-1) (number 0x11)).run
      (storeOf (code 0xFF ++ jumpToNext 7 ++ endBytes) true 3)
      = .ok (.program (.user 0))
        (storeOf (code 0x11 ++ code 0xFF ++ jumpToNext 7 ++ endBytes) true 4) := by decide +kernel
  have h' : Reachable rules {}
      (storeOf (code 0x11 ++ code 0xFF ++ jumpToNext 7 ++ endBytes) true 4) := by
    refine .ok (.ok h ?_ hfirst) ?_ hsecond
    · exact ⟨⟨none, rfl⟩, rfl⟩
    · exact ⟨⟨none, rfl⟩, rfl⟩
  exact ⟨_, _, (Instr.withNum .gto 1).withTarget 7, h', rfl, rfl, by decide, by decide, rfl, by cbv,
    rfl⟩

end Keystroke
