import Keystroke.Proofs.Store.Coherence

set_option autoImplicit false

/-! # Where a machine can stand in a program

The places of a program are the offsets at which its lines start, and the one behind its END. A
label, a line number and a jump whose target was looked up lead to lines
(`targetIn_mem_lineStarts`), and looking up targets moves none of them. What reading the line at a
place can do is said once (`Store.fetched_of_place`). -/

namespace Keystroke

open Line

variable {strict : Bool} {front back : List Line} {l : Line}

/-! ## Places -/

/-- The offsets at which lines start, and the one behind the last line. -/
def places (text : Bytes) : List Nat := lineStarts text ++ [text.length]

section

variable {ls ms : List Line} {n : Nat}

theorem mem_lineStarts_textOf :
    n ∈ lineStarts (textOf ls) ↔
      ∃ front l back, ls = front ++ l :: back ∧ (textOf front).length = n := by
  constructor
  · intro hn
    obtain ⟨k, hk⟩ := List.mem_iff_getElem?.1 hn
    obtain ⟨front, l, back, rfl, -, rfl⟩ := lineAt_textOf.1 hk
    exact ⟨front, l, back, rfl, rfl⟩
  · rintro ⟨front, l, back, rfl, rfl⟩
    exact List.mem_of_getElem? (lineAt_textOf.2 ⟨front, l, back, rfl, rfl, rfl⟩)

theorem mem_places_textOf :
    n ∈ places (textOf ls) ↔ ∃ front back, ls = front ++ back ∧ (textOf front).length = n := by
  rw [places, List.mem_append, List.mem_singleton, mem_lineStarts_textOf]
  constructor
  · rintro (⟨front, l, back, rfl, rfl⟩ | rfl)
    · exact ⟨front, l :: back, rfl, rfl⟩
    · exact ⟨ls, [], by simp, rfl⟩
  · rintro ⟨front, back, rfl, rfl⟩
    cases back with
    | nil => exact .inr (by simp)
    | cons l back => exact .inl ⟨front, l, back, rfl, rfl⟩

theorem length_textOf (ls : List Line) : (textOf ls).length = (ls.map size).sum := by
  induction ls with
  | nil => rfl
  | cons l ls ih => simp [ih, size]

theorem length_textOf_take_lt {j k : Nat} (hjk : j < k) (hk : k ≤ ls.length) :
    (textOf (ls.take j)).length < (textOf (ls.take k)).length := by
  have hsplit := List.take_append_drop j (ls.take k)
  rw [List.take_take, Nat.min_eq_left hjk.le] at hsplit
  cases hmid : (ls.take k).drop j with
  | nil =>
    rw [List.drop_eq_nil_iff, List.length_take] at hmid
    omega
  | cons m rest =>
    have hpos := m.two_le_size
    rw [size] at hpos
    rw [← hsplit, hmid, textOf_append, textOf_cons, List.length_append, List.length_append]
    omega

theorem mem_places_congr (h : ls.map size = ms.map size) (hn : n ∈ places (textOf ls)) :
    n ∈ places (textOf ms) := by
  obtain ⟨front, back, rfl, rfl⟩ := mem_places_textOf.1 hn
  refine mem_places_textOf.2 ⟨ms.take front.length, ms.drop front.length,
    (List.take_append_drop _ _).symm, ?_⟩
  rw [length_textOf, length_textOf, List.map_take, ← h, List.map_append, List.take_left' (by simp)]

theorem le_length_of_mem_places (h : n ∈ places (textOf ls)) : n ≤ (textOf ls).length := by
  obtain ⟨front, back, rfl, rfl⟩ := mem_places_textOf.1 h
  rw [textOf_append, List.length_append]
  exact Nat.le_add_right _ _

end

/-! ## What jumps lead to -/

theorem exists_of_labelAt? {arg : Operand} {pc n : Nat} {ls : List Line}
    (h : labelAt? strict arg pc ls = some n) :
    ∃ front l back, ls = front ++ l :: back ∧ n = pc + (textOf front).length := by
  induction ls generalizing pc with
  | nil => cases h
  | cons l ls ih =>
    rw [labelAt?] at h
    split at h
    · obtain rfl := Option.some.inj h
      exact ⟨[], l, ls, rfl, rfl⟩
    · obtain ⟨front, m, back, rfl, rfl⟩ := ih h
      exact ⟨l :: front, m, back, rfl, by simp [size, Nat.add_assoc]⟩

/-- Lines are passed up to the END at most. -/
theorem exists_of_passed (count : Nat) (ls : List Line) (hend : ∃ l ∈ ls, l.isEnd = true) :
    ∃ front l back, ls = front ++ l :: back ∧ passed count ls = (textOf front).length := by
  induction ls generalizing count with
  | nil => simp at hend
  | cons l ls ih =>
    cases count with
    | zero => exact ⟨[], l, ls, rfl, rfl⟩
    | succ count =>
      rw [passed]
      split
      · exact ⟨[], l, ls, rfl, rfl⟩
      · next hl =>
        obtain ⟨front, m, back, hls, hpassed⟩ := ih count (by simpa [hl] using hend)
        exact ⟨l :: front, m, back, by rw [hls]; rfl, by simp [hpassed, size]⟩

/-- A target that was found is the offset of a line. The offsets of a longer program would not fit
    into it. -/
theorem targetIn_mem_lineStarts {i : Instr}
    (hlen : (textOf (front ++ back ++ [endLine])).length < 2 ^ 31)
    (ht : ¬ targetIn strict front back i < 0) :
    ∃ n ∈ lineStarts (textOf (front ++ back ++ [endLine])),
      (targetIn strict front back i).toInt = n := by
  have hplace {n : Nat} (hn : n ∈ lineStarts (textOf (front ++ back ++ [endLine]))) :
      (Int32.ofNat n).toInt = n :=
    Int32.toInt_ofNat_of_lt (Nat.lt_of_le_of_lt
      (le_length_of_mem_places (List.mem_append_left _ hn)) hlen)
  unfold targetIn at ht ⊢
  split at ht
  · next hline =>
    rw [if_pos hline]
    split at ht
    · exact absurd (by decide) ht
    · next hnum =>
      rw [if_neg hnum]
      obtain ⟨front', l, back', hsplit, hpassed⟩ := exists_of_passed
        (i.operand.num.toInt - 1).toNat (front ++ back ++ [endLine])
        ⟨endLine, by simp, isEnd_endLine⟩
      have hmem := mem_lineStarts_textOf.2 ⟨front', l, back', hsplit, hpassed.symm⟩
      exact ⟨_, hmem, by rw [Int32.ofInt_eq_ofNat]; exact hplace hmem⟩
  · next hline =>
    rw [if_neg hline]
    have hmem (n : Nat) (hn : (labelAt? strict i.operand (textOf front).length back).or
        (labelAt? strict i.operand 0 front) = some n) :
        n ∈ lineStarts (textOf (front ++ back ++ [endLine])) := by
      rcases Option.or_eq_some_iff.1 hn with hn | ⟨-, hn⟩
      · obtain ⟨back', l, rest, rfl, rfl⟩ := exists_of_labelAt? hn
        exact mem_lineStarts_textOf.2 ⟨front ++ back', l, rest ++ [endLine], by simp, by simp⟩
      · obtain ⟨front', l, rest, rfl, rfl⟩ := exists_of_labelAt? hn
        exact mem_lineStarts_textOf.2 ⟨front', l, rest ++ back ++ [endLine], by simp, by simp⟩
    cases hfound : (labelAt? strict i.operand (textOf front).length back).or
        (labelAt? strict i.operand 0 front) with
    | none =>
      rw [hfound] at ht
      exact absurd (by decide) ht
    | some n => exact ⟨n, hmem n hfound, hplace (hmem n hfound)⟩

/-! ## Reading the line at a place -/

namespace Store

/-- What reading the line at an offset can do: nothing, give a line, or give a jump after its target
    was looked up. -/
inductive Fetched (s : Store) (ref : ProgramRef) (pc : Int) :
    EStateM.Result Error Store (Instr × Nat) → Prop
  | refused {e : Error}
      (hread : ∀ p, s.program? ref = some p → ∃ fault, decodeAt p.buffer.text pc = .error fault)
      (h : e.isCrash = true → maxOffset < pc ∧ s.program? ref ≠ none) :
      Fetched s ref pc (.error e s)
  | line {p : Program} {front back : List Line} {l : Line} (hp : s.program? ref = some p)
      (htext : p.buffer.text = textOf (front ++ l :: back)) (hpc : pc = (textOf front).length) :
      Fetched s ref pc (.ok (l.instr, l.size) s)
  | found {p : Program} {front back : List Line} {l : Line} {t : Int32}
      (hp : s.program? ref = some p) (hl : p.Holds (front ++ l :: back))
      (hpc : pc = (textOf front).length) (hc : l.header.cached = true)
      (hu : l.target = targetUnknown)
      (ht : t = targetIn s.options.strictLabels (front ++ [l]) back l.instr) :
      Fetched s ref pc (.ok (l.instr.withTarget t, l.size)
        (s.setProgram ref (p.withText (textOf (front ++ l.withTarget t :: back ++ [endLine]))
          false)))

variable {s : Store} {ref : ProgramRef} {p : Program} {ls : List Line} {pc : Int}

theorem fetched_of_none (hp : s.program? ref = none) :
    s.Fetched ref pc (resolveTarget ref pc s) := by
  rw [resolveTarget_of_none hp]
  exact .refused (fun p hp' => by rw [hp] at hp'; cases hp') fun h => by cases h

section

variable (hp : s.program? ref = some p)

include hp

/-- An offset that cannot be reached, or behind the END, has no line. -/
theorem fetched_of_unread {e : InstrFault}
    (hread : decodeAt p.buffer.text pc = .error e)
    (he : (Error.ofInstrFault e).isCrash = true → maxOffset < pc) :
    s.Fetched ref pc (resolveTarget ref pc s) := by
  rw [resolveTarget_of_unread hp hread]
  refine .refused (fun q hq => ⟨e, ?_⟩) fun h => ⟨he h, by simp [hp]⟩
  obtain rfl := Option.some.inj (hp.symm.trans hq)
  exact hread

/-- A line that is no jump with an unknown target is only read. -/
theorem fetched_of_known (htext : p.buffer.text = textOf (front ++ l :: back))
    (hnear : ((textOf front).length : Int) ≤ maxOffset) (hneg : l.header.isNegativeJump = false)
    (hknown : ¬ (l.header.cached = true ∧ l.target = targetUnknown)) :
    s.Fetched ref (textOf front).length (resolveTarget ref (textOf front).length s) := by
  have hread : hasJumpCache l.instr.command l.instr.operand.kind = false
      ∨ l.target ≠ targetUnknown := by
    rw [hasJumpCache_instr hneg]
    by_cases hc : l.header.cached = true
    · exact .inr fun hu => hknown ⟨hc, hu⟩
    · exact .inl (by simpa using hc)
  rw [resolveTarget_of_known hp (by simpa using htext) hnear hread]
  exact .line hp htext rfl

theorem fetched_of_at {k : Option Nat} (hl : p.Holds ls)
    (hat : s.At ref pc k)
    (hneg : ∀ header, headerAt? p.buffer.text pc = some header → header.isNegativeJump = false) :
    s.Fetched ref pc (resolveTarget ref pc s) := by
  by_cases hfar : maxOffset < pc
  · refine fetched_of_unread (e := .unaddressable) hp ?_ fun _ => hfar
    rw [decodeAt, if_pos hfar]
  have hnear := Int.not_lt.1 hfar
  rcases at_cases hp hl hat with ⟨rfl, -⟩ | ⟨rfl, -⟩ | ⟨front, l, back, rfl, rfl, -⟩
  · exact fetched_of_unread hp rfl fun h => by cases h
  · exact fetched_of_known hp hl.text hnear rfl fun h => by cases h.1
  · have hl' := hneg l.header (headerAt?_line hl.textAt)
    by_cases hopen : l.header.cached = true ∧ l.target = targetUnknown
    · rw [resolveTarget_of_jump hp hl hnear hl' hopen.1 hopen.2]
      exact .found hp hl rfl hopen.1 hopen.2 rfl
    · have htext : p.buffer.text = textOf (front ++ l :: (back ++ [endLine])) := by
        simpa using hl.text
      exact fetched_of_known hp htext hnear hl' hopen

theorem fetched_of_place (hl : p.Holds ls)
    (hneg : ∀ l ∈ ls, l.header.isNegativeJump = false)
    (hplace : ∃ n ∈ places p.buffer.text, pc = n) :
    s.Fetched ref pc (resolveTarget ref pc s) := by
  obtain ⟨n, hn, rfl⟩ := hplace
  rcases List.mem_append.1 hn with hstart | hend
  · obtain ⟨k, hk⟩ := List.mem_iff_getElem?.1 hstart
    refine fetched_of_at (k := some k) hp hl ⟨p, n, hp, hk, rfl⟩ fun header hheader => ?_
    rcases lineAt_cases hl hk with ⟨rfl, rfl⟩ | ⟨front, l, back, rfl, -, rfl⟩
    · obtain rfl := Option.some.inj ((headerAt?_line hl.textEnd).symm.trans hheader)
      rfl
    · obtain rfl := Option.some.inj ((headerAt?_line hl.textAt).symm.trans hheader)
      exact hneg l (by simp)
  · -- Behind the END there are no bytes left to read.
    obtain rfl := List.mem_singleton.1 hend
    by_cases hfar : maxOffset < (p.buffer.text.length : Int)
    · refine fetched_of_unread (e := .unaddressable) hp ?_ fun _ => hfar
      rw [decodeAt, if_pos hfar]
    have hnear := Int.not_lt.1 hfar
    refine fetched_of_unread hp (e := .headerOutOfRange p.buffer.text.length) ?_ fun h => by cases h
    have hread := decodeAt_append p.buffer.text [] hnear
    rw [List.append_nil] at hread
    rw [hread]
    rfl

end

/-! ## Line numbers -/

/-- The place in front of the first line and the offsets of the lines, in the order of their
    numbers. -/
def numberedOffsets (text : Bytes) : List Int := -1 :: (lineStarts text).map Int.ofNat

/-- Numbers and offsets of lines, the END among them, are in order and inverse to each other.
    Numbers that are too great stand for the END, and offsets inside of a line for the next one. -/
theorem line_numbers_inverse (hp : s.program? ref = some p) (hl : p.Holds ls) :
    let offsets := numberedOffsets p.buffer.text
    offsets.length = ls.length + 2 ∧ offsets.Pairwise (· < ·) ∧
    (∀ (n : Nat) (pc : Int), offsets[n]? = some pc →
      s.lineAt ref pc = .ok n ∧ s.pcOfLine ref n = .ok pc) ∧
    (∀ line : Int, ls.length + 1 < line →
      s.pcOfLine ref line = s.pcOfLine ref (ls.length + 1 : Nat)) ∧
    ∀ (front back : List Line) (l : Line) (pc : Int), ls ++ [endLine] = front ++ l :: back →
      (textOf front).length < pc → pc < (textOf front).length + l.size →
      s.lineAt ref pc = .ok (min (front.length + 2) (ls.length + 1)) := by
  have hstarts : lineStarts p.buffer.text
      = (List.range (ls.length + 1)).map fun k => (textOf (ls.take k)).length := by
    rw [hl.text, lineStarts_textOf, List.length_append]
    refine List.map_congr_left fun k hk => ?_
    rw [List.take_append_of_le_length (by simp at hk; omega)]
  have hoffset (line : Int) (hline : 0 < line) :
      s.pcOfLine ref line = .ok (textOf (ls.take (line - 1).toNat)).length := by
    rw [pcOfLine, hp]
    simp only
    rw [hl.text, lineOffset_textOf _ ⟨endLine, by simp, rfl⟩, if_neg (by omega),
      passed_endLine ls hl.notEnd]
  refine ⟨by simp [numberedOffsets, hstarts], ?_, fun n pc hn => ?_, fun line hline => ?_,
    fun front back l pc hsplit hlow hhigh => ?_⟩
  · simp only [numberedOffsets, hstarts, List.pairwise_cons, List.pairwise_map]
    refine ⟨by simp; omega, List.pairwise_lt_range.imp_of_mem fun hj hk hjk => ?_⟩
    rw [List.mem_range] at hk
    exact Int.ofNat_lt.2 (length_textOf_take_lt hjk (by omega))
  · cases n with
    | zero =>
      obtain rfl : -1 = pc := by simpa [numberedOffsets] using hn
      exact ⟨rfl, by simp [pcOfLine, hp, lineOffset]⟩
    | succ k =>
      obtain ⟨hk, rfl⟩ : ∃ _ : k < ls.length + 1, ((textOf (ls.take k)).length : Int) = pc := by
        simpa [numberedOffsets, hstarts, List.getElem?_eq_some_iff, Nat.lt_succ_iff] using hn
      refine ⟨?_, by simpa using hoffset (k + 1) (by omega)⟩
      have hbelow := linesBelow_front (ls.take k) (ls.drop k)
      rw [List.take_append_drop, List.length_take, Nat.min_eq_left (by omega)] at hbelow
      rw [lineAt_of_holds hp hl (by omega), hbelow]
  · rw [hoffset line (by omega), hoffset _ (by omega), List.take_of_length_le (by omega),
      List.take_of_length_le (by omega)]
  · rw [lineAt_of_holds hp hl (by omega)]
    rcases List.eq_nil_or_concat back with rfl | ⟨back, m, rfl⟩
    · obtain ⟨rfl, -⟩ := List.append_inj' hsplit rfl
      have hbelow := linesBelow_eq ls [] (last_starts_below hlow.le) (.inl rfl)
      rw [List.append_nil] at hbelow
      rw [hbelow, Nat.min_eq_right (by omega)]
    · rw [List.concat_eq_append, ← List.cons_append, ← List.append_assoc] at hsplit
      obtain ⟨rfl, -⟩ := List.append_inj' hsplit rfl
      have hbelow := linesBelow_eq (front ++ [l]) back (by simpa using hlow)
        (.inr (by simp [Line.size] at hhigh ⊢; omega))
      rw [List.append_assoc, List.singleton_append] at hbelow
      rw [hbelow]
      simp

/-- Two labels of three bytes and the END are the lines 1 to 3. Line 9 is the END, and an offset
    inside of the second label stands for it. -/
theorem line_numbers_inverse_labels :
    let text : Bytes := [0x5C, 1, 0x81, 0x5C, 1, 0x82, 0x90, 0]
    let s : Store := { options := {}, programs := [{ buffer := ⟨text, [], 0⟩ }] }
    s.lineAt (.user 0) 3 = .ok 2 ∧ s.pcOfLine (.user 0) 2 = .ok 3 ∧
      s.pcOfLine (.user 0) 9 = s.pcOfLine (.user 0) 3 ∧ s.lineAt (.user 0) 4 = .ok 3 := by
  intro text s
  let first : Line := ⟨[0x5C, 1, 0x81], rfl⟩
  let second : Line := ⟨[0x5C, 1, 0x82], rfl⟩
  have hp : s.program? (.user 0) = some { buffer := ⟨text, [], 0⟩ } := rfl
  have hl : Program.Holds { buffer := ⟨text, [], 0⟩ } [first, second] := ⟨rfl, by decide⟩
  obtain ⟨-, -, hinverse, hbehind, hinside⟩ := line_numbers_inverse hp hl
  obtain ⟨hline, hoffset⟩ := hinverse 2 3 (by decide)
  exact ⟨hline, hoffset, hbehind 9 (by decide),
    hinside [first] [endLine] second 4 rfl (by decide) (by decide)⟩

end Store

end Keystroke
