import Keystroke.Proofs.Compile.Storing

set_option autoImplicit false

/-! # Where jumps of gathered code land

Code is gathered by calls that hand out labels, add lines, and open and close subroutines. The
calls between opening and closing one are its body, so calls are a tree and what they gather is
read off it (`Calls.run_eq`). Once that is stored, looking up a jump gives the offset of the line
behind its label (`Calls.jumps_land`). -/

namespace Keystroke

open Operation List Code

/-- Calls that gather code, each subroutine being closed again. -/
inductive Calls where
  | done
  | newLabel (rest : Calls)
  | emit (line : CodeLine) (rest : Calls)
  | subroutine (id : Nat) (body rest : Calls)

namespace Calls

def run : Calls → Code → Option Code
  | done, c => some c
  | newLabel rest, c => rest.run (c.newLabels 1).1
  | emit line rest, c => rest.run (c.emit line)
  | subroutine id body rest, c => do
    let c ← body.run (c.openSubroutine id)
    rest.run (← c.closeSubroutine?)

/-- The lines outside of subroutines, and the subroutines in the order of their completion, each
    behind the mark of its label; `n` labels were handed out before. -/
def gathered : Calls → Nat → Emitted
  | done, n => ⟨[], [], n⟩
  | newLabel rest, n => rest.gathered (n + 1)
  | emit line rest, n =>
    let x := rest.gathered n
    ⟨line :: x.stream, x.subroutines, x.labels⟩
  | subroutine id body rest, n =>
    let x := body.gathered n
    let y := rest.gathered x.labels
    ⟨y.stream, x.subroutines ++ (.mark id :: x.stream) :: y.subroutines, y.labels⟩

/-- The complete code: the main stream, each subroutine behind a return, and a return. -/
def lines (calls : Calls) : List CodeLine :=
  (calls.gathered 0).stream ++ (calls.gathered 0).subroutines.flatMap (returnLine :: ·)
    ++ [returnLine]

/-- Labels are among those handed out and none is marked twice, jumps go to labels by line
    numbers, and all other lines can be put into a program. -/
structure Valid (calls : Calls) : Prop where
  once : ∀ id, calls.lines.count (.label id) ≤ 1
  mark : ∀ id, .label id ∈ calls.lines → 0 < id ∧ id ≤ (calls.gathered 0).labels
  jump : ∀ c id, .jump c id ∈ calls.lines → (c = .gtol ∨ c = .xeql) ∧ 0 < id
  line : ∀ i, .plain i ∈ calls.lines → i.Placeable

theorem run_eq (calls : Calls) (c : Code) :
    calls.run c = some (c.extend (calls.gathered c.labels)) := by
  induction calls generalizing c with
  | done => simp [run, gathered, extend]
  | newLabel rest ih => rw [run, ih, gathered]; rfl
  | emit line rest ih => simp [run, ih, gathered, extend, Code.emit]
  | subroutine id body rest ihBody ihRest =>
    simp [run, ihBody, ihRest, gathered, extend, openSubroutine, Code.closeSubroutine?]

variable {calls : Calls}

theorem Valid.ordered (h : calls.Valid)
    (hmarked : ∀ c id, .jump c id ∈ calls.lines → .label id.toNat ∈ calls.lines) :
    Ordered 0 (calls.gathered 0).labels calls.lines where
  le := Nat.zero_le _
  once id := by
    split_ifs with hid
    · exact h.once id
    · exact Nat.le_of_eq (count_eq_zero.2 fun hmem => hid (h.mark id hmem))
  closed c id hmem := by
    have := (h.jump c id hmem).2
    exact ⟨id.toNat, by omega, hmarked c id hmem⟩

end Calls

theorem Code.resolveLines_of_unmarked {all rest : List CodeLine} {c : Command} {id : Int}
    (hmem : .jump c id ∈ rest) (hpos : 0 < id) (hunmarked : .label id.toNat ∉ all) :
    ∃ e, resolveLines (labelLines 1 all) rest = .error e := by
  induction rest with
  | nil => exact absurd hmem not_mem_nil
  | cons line rest ih =>
    rcases mem_cons.1 hmem with rfl | hmem
    · have hnone : lineOf? (labelLines 1 all) id.toNat = none := by
        rw [lineOf?, find?_labelLines hunmarked, Option.map_none]
      exact ⟨_, by simp [resolveLines, hpos, hnone, bind, Except.bind]; rfl⟩
    · obtain ⟨e, he⟩ := ih hmem
      cases line with
      | label => exact ⟨e, he⟩
      | plain => exact ⟨e, by simp [resolveLines, he, bind, Except.bind]⟩
      | jump c' id' =>
        simp only [resolveLines, he]
        split_ifs
        · cases lineOf? (labelLines 1 all) id'.toNat <;> exact ⟨_, rfl⟩
        · exact ⟨_, rfl⟩

variable {s : Store} {ref : ProgramRef} {p : Program}

/-- A jump to a line by its number is looked up by counting lines. -/
theorem Store.resolveTarget_of_lineNumber {ls front back : List Line} {l : Line} {c : Command}
    {n : Nat} (hp : s.program? ref = some p) (hl : p.Holds ls) (hsplit : front ++ l :: back = ls)
    (hw : l.Writes (.withNum c (.ofNat (n + 1)))) (hc : c = .gtol ∨ c = .xeql)
    (hn : n < ls.length) (hsmall : (textOf ls).length < 2147483648) :
    ∃ i size s', resolveTarget ref (textOf front).length s = .ok (i, size) s' ∧ i.command = c ∧
      i.operand.target.toInt = (textOf (ls.take n)).length := by
  have hlen := length_le_length_textOf ls
  have hfront : (textOf front).length ≤ (textOf ls).length := by simp [← hsplit]
  have htake : (textOf (ls.take n)).length ≤ (textOf ls).length := by
    conv_rhs => rw [← take_append_drop n ls, textOf_append, length_append]
    omega
  have hmax : (2147483648 : Int) ≤ maxOffset := by decide
  have hnum : (Int32.ofNat (n + 1)).toInt = n + 1 := Int32.toInt_ofNat_of_lt (by omega)
  have hordinary : c.isOrdinary = true := by rcases hc with rfl | rfl <;> rfl
  have hinstr : l.instr = .withNum c (.ofNat (n + 1)) := by
    rw [(hw.stores (Instr.storable_withNum hordinary (by omega)).toWellFormed).instr]
    rcases hc with rfl | rfl <;> rfl
  have hneg : l.header.isNegativeJump = false := by
    rw [Header.isNegativeJump, hw.command]
    rcases hc with rfl | rfl <;> rfl
  have hcached : l.header.cached = true := by
    rw [← Line.hasJumpCache_instr hneg, hinstr]
    rcases hc with rfl | rfl <;> rfl
  have htarget : targetIn s.options.strictLabels (front ++ [l]) back l.instr
      = .ofInt (textOf (ls.take n)).length := by
    rw [targetIn, hinstr, if_pos (by simpa [Instr.withNum] using hc)]
    simp only [Instr.withNum, hnum]
    rw [if_neg (by omega), append_assoc front, singleton_append, hsplit, passed_endLine _ hl.notEnd]
    simp
  refine ⟨_, _, _, resolveTarget_of_jump hp (hsplit ▸ hl) (by omega) hneg hcached hw.target, ?_, ?_⟩
  · rw [hinstr]
    rfl
  · rw [htarget]
    exact Int32.toInt_ofInt_of_le (by omega) (by omega)

namespace Calls

variable {calls : Calls}

/-- Gathered code can be completed unless a jump goes to a label that is not marked. If it is stored
    then the program, whatever it was before, is the main stream, the subroutines in the order of
    their completion with a return before each, and a return. Looking up a jump in it gives the
    offset of the line behind its label. -/
theorem jumps_land (h : calls.Valid) (hp : s.program? ref = some p)
    (hread : Store.Readable s.programs) :
    ∃ c, calls.run {} = some c ∧
      ((∃ e, c.resolve = .error e) ↔
        ∃ command id, .jump command id ∈ calls.lines ∧ .label id.toNat ∉ calls.lines) ∧
      ∀ s', c.storeInto ref s = .ok () s' → ∃ ls p', s'.Agree (s.setProgram ref p') ∧
        p'.Holds ls ∧
        List.Forall₂ Line.Writes ls (instrs (lineIn calls.lines) calls.lines) ∧
        ((textOf ls).length < 2147483648 → ∀ pre command id post,
          calls.lines = pre ++ .jump command id :: post →
          ∃ pre' post', calls.lines = pre' ++ .label id.toNat :: post' ∧
          ∃ i size s'', Store.resolveTarget ref (textOf (ls.take (width pre))).length s'
            = .ok (i, size) s'' ∧ i.command = command ∧
            i.operand.target.toInt = (textOf (ls.take (width pre'))).length) := by
  obtain ⟨c, hrun, hlines⟩ : ∃ c, calls.run {} = some c ∧ c.lines = calls.lines :=
    ⟨_, calls.run_eq {}, by simp [Code.lines, Code.main, extend, lines]⟩
  have hresolve : c.resolve = resolveLines (labelLines 1 calls.lines) calls.lines := by
    rw [Code.resolve, hlines]
  have hfails : ∀ command id, .jump command id ∈ calls.lines → .label id.toNat ∉ calls.lines →
      ∃ e, c.resolve = .error e := by
    intro command id hjump hunmarked
    rw [hresolve]
    exact resolveLines_of_unmarked hjump (h.jump command id hjump).2 hunmarked
  refine ⟨c, hrun, ⟨?_, ?_⟩, ?_⟩
  · rintro ⟨e, he⟩
    by_contra! hmarked
    rw [hresolve, resolveLines_eq (h.ordered hmarked) _ (Subset.refl _)] at he
    cases he
  · rintro ⟨command, id, hjump, hunmarked⟩
    exact hfails command id hjump hunmarked
  intro s' hstore
  have hmarked : ∀ command id, .jump command id ∈ calls.lines → .label id.toNat ∈ calls.lines := by
    intro command id hjump
    by_contra hunmarked
    obtain ⟨e, he⟩ := hfails command id hjump hunmarked
    rw [storeInto, he, bind_error (Edit.ofExcept_error e)] at hstore
    cases hstore
  have hordered := h.ordered hmarked
  rw [resolveLines_eq hordered _ (Subset.refl _)] at hresolve
  have hcode : ∀ i ∈ instrs (lineIn calls.lines) calls.lines, i.Literal ∧ i.command ≠ .endLine := by
    refine forall_instrs (fun i hi => ⟨(h.line i hi).toLiteral, (h.line i hi).notEnd⟩) ?_
    intro command id hjump
    refine ⟨⟨by simp [Instr.withNum], fun _ => not_mem_nil⟩, ?_⟩
    change command ≠ .endLine
    rcases (h.jump command id hjump).1 with rfl | rfl <;> decide
  rcases Store.storeInto_cases hp hresolve (fun i hi => (hcode i hi).1)
      (fun i hi hend => absurd hend (hcode i hi).2) (fun _ _ => hread) (fun _ _ _ => hread) with
    ⟨ls, p', s1, hstored, hs1, hls, hwrites⟩ | ⟨e, s1, hstored, -⟩
  swap
  · rw [hstored] at hstore
    cases hstore
  obtain ⟨-, rfl⟩ := EStateM.Result.ok.inj (hstored.symm.trans hstore)
  refine ⟨ls, p', hs1, hls, hwrites, fun hsmall pre command id post hpre => ?_⟩
  have hjump : .jump command id ∈ calls.lines := by simp [hpre]
  obtain ⟨pre', post', hpre'⟩ := append_of_mem (hmarked command id hjump)
  refine ⟨pre', post', hpre', ?_⟩
  have hnumber : lineIn calls.lines id.toNat = width pre' + 1 := by
    rw [hpre'] at hordered ⊢
    exact lineIn_eq hordered
  have hle : lineIn calls.lines id.toNat ≤ width calls.lines := lineIn_le _ _
  have hlength : width pre' < ls.length := by
    rw [hwrites.length_eq, length_instrs]
    omega
  rw [hpre, instrs_append, ← hpre] at hwrites
  have hrest := forall₂_drop_append _ _ _ hwrites
  rw [length_instrs, instrs, hnumber] at hrest
  obtain ⟨l, back, hw, -, hdrop⟩ := forall₂_cons_right_iff.1 hrest
  have hsplit : ls.take (width pre) ++ l :: back = ls := by
    rw [← hdrop, take_append_drop]
  have hp' : s1.program? ref = some p' := by rw [hs1.program?, Store.program?_setProgram_self _ hp]
  exact Store.resolveTarget_of_lineNumber hp' hls hsplit hw (h.jump command id hjump).1 hlength
    hsmall

/-- A jump to itself. -/
theorem jumps_land_loop :
    let loop : Calls := .newLabel (.emit (.label 1) (.emit (.jump .gtol 1) .done))
    loop.Valid ∧ ∃ c s' i size s'', loop.run {} = some c ∧
      c.storeInto (.user 0) (storeOf endBytes true 0) = .ok () s' ∧
      Store.resolveTarget (.user 0) 0 s' = .ok (i, size) s'' ∧ i.command = .gtol ∧
      i.operand.target = 0 := by
  intro loop
  have hlines : loop.lines = [.label 1, .jump .gtol 1, .plain (.plain .rtn)] := rfl
  have hvalid : loop.Valid :=
    { once := fun id => by
        rw [hlines]
        by_cases hid : 1 = id <;> simp [hid]
      mark := fun id h => by
        obtain rfl : id = 1 := by simpa [hlines] using h
        decide
      jump := fun c id h => by
        obtain ⟨rfl, rfl⟩ : c = .gtol ∧ id = 1 := by simpa [hlines] using h
        decide
      line := fun i h => by
        obtain rfl : i = .plain .rtn := by simpa [hlines] using h
        exact (Instr.storable_plain rfl).toWellFormed.placeable }
  have hread : Store.Readable (storeOf endBytes true 0).programs := by
    intro q hq
    obtain rfl := mem_singleton.1 hq
    exact ⟨[], rfl, by simp⟩
  obtain ⟨c, hrun, -, hstore⟩ := jumps_land hvalid
    (show (storeOf endBytes true 0).program? (.user 0) = some _ from rfl) hread
  have hcode : loop.run {} = some ⟨[.label 1, .jump .gtol 1], [], [], 1⟩ := rfl
  obtain rfl := Option.some.inj (hrun.symm.trans hcode)
  have hok : storeInto ⟨[.label 1, .jump .gtol 1], [], [], 1⟩ (.user 0)
      (storeOf endBytes true 0) = .ok () (storeOf
        ([67, 17, 255, 255, 255, 255, 129, 93, 0] ++ endBytes) true 0) := by decide +kernel
  obtain ⟨ls, p, hagree, hls, -, hland⟩ := hstore _ hok
  obtain rfl : _ = p := Option.some.inj (hagree.program? (.user 0))
  have hlen : 11 = (textOf ls).length + 2 := hls.length
  obtain ⟨pre, post, hsplit, i, size, s'', hlook, hcommand, htarget⟩ :=
    hland (by omega) [.label 1] .gtol 1 _ rfl
  obtain rfl : pre = [] := by
    cases pre with
    | nil => rfl
    | cons _ pre =>
      have hmem : CodeLine.label 1 ∈ [.jump .gtol 1, .plain (.plain .rtn)] := by
        rw [(cons.inj (hlines.symm.trans hsplit)).2]
        simp
      simp at hmem
  exact ⟨hvalid, _, _, i, size, s'', hrun, hok, hlook, hcommand, Int32.toInt_inj.1 htarget⟩

/-- Behind a zero byte in its spelling, the rest of a number is no part of its line any more: the
    next lines are put in between. -/
theorem torn_behind_zero_byte :
    let calls : Calls := .emit (.plain (.ofNumber 0x3FF8000000000000 [0x31, 0]))
      (.emit (.plain (.plain .add)) .done)
    let number : Bytes := [0x91, 0x89, 0, 0, 0, 0, 0, 0, 0xF8, 0x3F, 0x31, 0]
    ∃ c code, calls.run {} = some c ∧ c.resolve = .ok code ∧
      code.map Instr.encode = [.ok (number ++ [0]), .ok [8, 0], .ok [0x5D, 0]] ∧
      c.storeInto (.user 0) (storeOf endBytes true 0)
        = .ok () (storeOf (number ++ [8, 0, 0x5D, 0, 0] ++ endBytes) true 0) :=
  ⟨_, _, rfl, rfl, by decide, by decide +kernel⟩

end Calls

end Keystroke
