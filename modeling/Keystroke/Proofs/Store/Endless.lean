import Keystroke.Proofs.Store.Cyclic

set_option autoImplicit false

/-! # Searches that never end

A search for a local label ends if it starts in the program, at its END, or anywhere in front.
Behind the END it is otherwise: the search goes on at the top, and since it is stopped only where it
started, it comes to the END again and again when no label answers
(`Store.search_ends_iff`). -/

namespace Keystroke

open List Line

variable {count : Nat} {wrapped : Bool} {t : Int32} {ls : List Line} {start : Int}

/-- The search as a loop without a bound on the lines: it comes to an end with the target `t`. -/
def SearchEnds (strict : Bool) (arg : Operand) (text : Bytes) (start : Int) (t : Int32) : Prop :=
  ∃ count, searchLocal strict arg text start.toNat count start.toNat false = .ok t

section

variable {strict : Bool} {arg : Operand} {text : Bytes} {start : Nat}

/-! ## Steps and runs -/

/-- At an END, and wherever there are more than two bytes, it can be said whether there is a label
    that answers. -/
theorem exists_isLocalLabel (strict : Bool) (arg : Operand) {rest : Bytes}
    (hrest : rest = endBytes ∨ 3 ≤ rest.length) :
    ∃ h found, Header.read? rest = some h ∧ isLocalLabel strict arg h rest = .ok found := by
  rcases hrest with rfl | hlen
  · exact ⟨_, false, rfl, rfl⟩
  · obtain ⟨h, hread⟩ : ∃ h, Header.read? rest = some h := by
      match rest with
      | [] | [_] => simp at hlen
      | _ :: _ :: _ => exact ⟨_, rfl⟩
    obtain ⟨found, hfound⟩ := isLocalLabel_ok strict arg h hlen
    exact ⟨h, found, hread, hfound⟩

/-- One step of the search, in a text that is an END or has more than two bytes: the search ends
    without a label or at a line of the program, or it goes on. How many lines it may still visit
    plays no part in that. -/
theorem searchLocal_step_cases (strict : Bool) (arg : Operand) (start : Nat)
    (ht : text = endBytes ∨ 3 ≤ text.length) (search : Nat) (wrapped : Bool) :
    (∃ t, (t = targetNone ∨ ∃ pc < text.length, t = .ofNat pc) ∧
      ∀ count, searchLocal strict arg text start (count + 1) search wrapped = .ok t) ∨
    ∃ search' wrapped', ∀ count, searchLocal strict arg text start (count + 1) search wrapped
      = searchLocal strict arg text start count search' wrapped' := by
  by_cases hstop : (wrapped && decide (start ≤ search)) = true
  · refine Or.inl ⟨targetNone, Or.inl rfl, fun count => ?_⟩
    rw [searchLocal, if_pos hstop]
  by_cases hlast : (decide (text.length ≤ search + endBytes.length) && decide (start = 0)) = true
  · refine Or.inl ⟨targetNone, Or.inl rfl, fun count => ?_⟩
    rw [searchLocal, if_neg hstop]
    simp only [hlast, if_true]
  -- the line that the step looks at, in front of the END or at the top
  obtain ⟨pc, hpc⟩ : ∃ pc, pc = if text.length ≤ search + endBytes.length then 0 else search :=
    ⟨_, rfl⟩
  have hrest : pc < text.length ∧ (text.drop pc = endBytes ∨ 3 ≤ (text.drop pc).length) := by
    have htwo : endBytes.length = 2 := rfl
    rw [length_drop]
    split at hpc
    · subst hpc
      rcases ht with rfl | ht
      · exact ⟨by decide, Or.inl rfl⟩
      · exact ⟨by omega, Or.inr (by omega)⟩
    · exact ⟨by omega, Or.inr (by omega)⟩
  obtain ⟨h, found, hread, hfound⟩ := exists_isLocalLabel strict arg hrest.2
  cases found with
  | true =>
    refine Or.inl ⟨.ofNat pc, Or.inr ⟨pc, hrest.1, rfl⟩, fun count => ?_⟩
    rw [searchLocal, if_neg hstop]
    simp only [hlast, Bool.false_eq_true, if_false, ← hpc, hread, hfound]
    rfl
  | false =>
    cases hsize : lineSize (text.drop pc) with
    | error e =>
      refine Or.inl ⟨targetNone, Or.inl rfl, fun count => ?_⟩
      rw [searchLocal, if_neg hstop]
      simp only [hlast, Bool.false_eq_true, if_false, ← hpc, hread, hfound, hsize]
      rfl
    | ok size =>
      refine Or.inr ⟨pc + size, wrapped || decide (text.length ≤ search + endBytes.length), ?_⟩
      intro count
      rw [searchLocal, if_neg hstop]
      simp only [hlast, Bool.false_eq_true, if_false, ← hpc, hread, hfound, hsize]
      rfl

/-- A search finds no label, or a line of the program, or it has not ended yet. -/
theorem searchLocal_cases (ht : text = endBytes ∨ 3 ≤ text.length) (count search : Nat)
    (wrapped : Bool) :
    (∃ t, searchLocal strict arg text start count search wrapped = .ok t ∧
      (t = targetNone ∨ ∃ pc < text.length, t = .ofNat pc)) ∨
    searchLocal strict arg text start count search wrapped = .error .endless := by
  induction count generalizing search wrapped with
  | zero => exact Or.inr rfl
  | succ count ih =>
    rcases searchLocal_step_cases strict arg start ht search wrapped with
      ⟨t, hinside, hstep⟩ | ⟨search', wrapped', hstep⟩
    · exact Or.inl ⟨t, hstep count, hinside⟩
    · rw [hstep count]
      exact ih search' wrapped'

/-- A search that has ended is not changed by lines that it could still visit. -/
theorem searchLocal_mono (ht : text = endBytes ∨ 3 ≤ text.length) {search : Nat}
    (h : searchLocal strict arg text start count search wrapped = .ok t) (more : Nat) :
    searchLocal strict arg text start (count + more) search wrapped = .ok t := by
  induction count generalizing search wrapped with
  | zero => exact absurd h (by simp [searchLocal])
  | succ count ih =>
    rw [Nat.succ_add]
    rcases searchLocal_step_cases strict arg start ht search wrapped with
      ⟨t', -, hstep⟩ | ⟨search', wrapped', hstep⟩
    · rw [hstep] at h ⊢
      exact h
    · rw [hstep] at h ⊢
      exact ih h

/-! ## Searches from behind the END -/

theorem searchLocal_endBytes (count search : Nat) (hw : wrapped = true → search < start)
    (hstart : 0 < start) :
    searchLocal strict arg endBytes start (count + 1) search wrapped
      = searchLocal strict arg endBytes start count 2 true := by
  have hne : start ≠ 0 := by omega
  have hend : endBytes.length ≤ search + endBytes.length := by omega
  rw [searchLocal_wrap strict arg count hw hend hstart, searchLocal]
  simp [hne]
  rfl

theorem searchLocal_endless_empty (hstart : 2 < start) (count search : Nat)
    (hw : wrapped = true → search < start) :
    searchLocal strict arg endBytes start count search wrapped = .error .endless := by
  induction count generalizing search wrapped with
  | zero => rfl
  | succ count ih =>
    rw [searchLocal_endBytes count search hw (by omega)]
    exact ih 2 (fun _ => hstart)

/-- A search that is to stop behind the END passes it once and again, whatever line it is at. -/
theorem searchLocal_endless_at_line (hne : ls ≠ []) (hnone : ∀ l ∈ ls, l.answers strict arg = false)
    (hstart : (textOf ls).length < start) (count : Nat) (done todo : List Line)
    (hls : ls = done ++ todo) (wrapped : Bool) :
    searchLocal strict arg (textOf (ls ++ [endLine])) start count (textOf done).length wrapped
      = .error .endless := by
  have hstep : ∀ n done l todo wrapped, ls = done ++ l :: todo →
      searchLocal strict arg (textOf (ls ++ [endLine])) start (n + 1) (textOf done).length
          wrapped
        = searchLocal strict arg (textOf (ls ++ [endLine])) start n
          (textOf (done ++ [l])).length wrapped := by
    rintro n done l todo wrapped rfl
    have hplace : (textOf done).length < start := by
      rw [textOf_append, length_append] at hstart
      omega
    rw [append_assoc, cons_append, searchLocal_step strict arg start n wrapped done l
      (todo ++ [endLine]) (fun _ => hplace) (by simp [endBytes]),
      if_neg (by simp [hnone l (by simp)])]
  induction count generalizing done todo wrapped with
  | zero => rfl
  | succ count ih =>
    cases todo with
    | cons l todo =>
      rw [hstep count done l todo wrapped hls]
      exact ih (done ++ [l]) todo (by simp [hls]) wrapped
    | nil =>
      -- at the END: on to the first line
      rw [append_nil] at hls
      subst hls
      obtain ⟨l, rest, hcons⟩ := exists_cons_of_ne_nil hne
      have hend : (textOf (ls ++ [endLine])).length
          ≤ (textOf ls).length + endBytes.length := by
        rw [textOf_append, length_append]
        exact le_refl _
      rw [searchLocal_wrap strict arg count (fun _ => hstart) hend (by omega)]
      exact (hstep count [] l rest true hcons).trans (ih [l] rest hcons true)

/-- A search from behind the END that is at the top, or further down, finds the label that is
    there. -/
theorem searchLocal_found (done : List Line) {todo : List Line} {pc : Nat} (back : List Line)
    (hback : 2 ≤ (textOf back).length) (hstart : (textOf (done ++ todo)).length ≤ start)
    (hpc : labelAt? strict arg (textOf done).length todo = some pc) (hcount : todo.length ≤ count) :
    searchLocal strict arg (textOf (done ++ todo ++ back)) start count (textOf done).length true
      = .ok (.ofNat pc) := by
  induction todo generalizing done count with
  | nil => exact absurd hpc (by simp [labelAt?])
  | cons l todo ih =>
    rw [length_cons] at hcount
    obtain ⟨count, rfl⟩ := Nat.exists_eq_succ_of_ne_zero (by omega : count ≠ 0)
    have hplace : (textOf done).length < start := by
      have := l.two_le_size
      simp only [textOf_append, textOf_cons, length_append, size] at hstart this
      omega
    rw [append_assoc, cons_append, searchLocal_step strict arg start count true done l
      (todo ++ back) (fun _ => hplace) (by rw [textOf_append, length_append]; omega)]
    rw [labelAt?] at hpc
    split
    · next hanswers =>
      rw [if_pos hanswers] at hpc
      rw [Option.some.inj hpc]
    · next hanswers =>
      rw [if_neg hanswers] at hpc
      have hnext := ih (done ++ [l]) (by simpa using hstart)
        (by simpa [size] using hpc) (by omega : todo.length ≤ count)
      simpa using hnext

theorem exists_labelAt? (h : ∃ l ∈ ls, l.answers strict arg = true) (pc : Nat) :
    ∃ found, labelAt? strict arg pc ls = some found := by
  induction ls generalizing pc with
  | nil => simp at h
  | cons l ls ih =>
    rw [labelAt?]
    split
    · exact ⟨pc, rfl⟩
    · next hl =>
      obtain ⟨m, hm, hanswers⟩ := h
      rcases mem_cons.1 hm with rfl | hm
      · exact absurd hanswers hl
      · exact ih ⟨m, hm, hanswers⟩ _

end

/-! ## Which searches end -/

section

variable (strict : Bool) (arg : Operand) (ls : List Line)

theorem length_textOf_endLine : (textOf (ls ++ [endLine])).length = (textOf ls).length + 2 := by
  rw [textOf_append, length_append]
  rfl

theorem textOf_endLine_cases : textOf (ls ++ [endLine]) = endBytes ∨
    3 ≤ (textOf (ls ++ [endLine])).length := by
  cases ls with
  | nil => exact Or.inl rfl
  | cons l ls =>
    have := l.two_le_size
    rw [length_textOf_endLine]
    simp only [textOf_cons, length_append, size] at this ⊢
    exact Or.inr (by omega)

/-- Searches that end, and end within two rounds: from a place that is not behind the END, in a
    program with a label that answers, and right behind the END of a program without lines. -/
theorem exists_findLocal
    (h : start ≤ (textOf ls).length ∨ (∃ l ∈ ls, l.answers strict arg = true) ∨ ls = [] ∧
      start ≤ 2) :
    ∃ t, findLocal strict arg (textOf (ls ++ [endLine])) start = .ok t := by
  have hlength := length_textOf_endLine ls
  rcases lt_or_ge ((textOf ls).length : Int) start with hlt | hle
  · obtain ⟨n, rfl⟩ := Int.eq_ofNat_of_zero_le (by omega : 0 ≤ start)
    have hend : (textOf (ls ++ [endLine])).length ≤ n + endBytes.length := by
      rw [hlength, endBytes, length_cons, length_cons, length_nil]
      omega
    rw [findLocal, Int.toNat_natCast]
    rcases h with hle | hlabel | ⟨rfl, htwo⟩
    · omega
    · -- the first label from the top
      obtain ⟨pc, hpc⟩ := exists_labelAt? hlabel 0
      have hmany := length_le_length_textOf ls
      rw [searchLocal_wrap strict arg _ (by simp) hend (by omega)]
      exact ⟨_, searchLocal_found [] [endLine] (by simp [endBytes])
        (by rw [nil_append]; omega) hpc (by omega)⟩
    · -- the END itself, and then the search is where it started
      have hempty : textOf ([] ++ [endLine]) = endBytes := rfl
      rw [hempty, searchLocal_endBytes _ _ (by simp) (by omega), searchLocal,
        if_pos (by simp; omega)]
      exact ⟨_, rfl⟩
  · have hok := findLocal_ok strict arg
      (by omega : start.toNat + 2 ≤ (textOf (ls ++ [endLine])).length)
    rwa [findLocal, Int.toNat_natCast] at hok

/-- All other searches never end. -/
theorem searchLocal_endless (hlt : (textOf ls).length < start)
    (hnone : ∀ l ∈ ls, l.answers strict arg = false) (hempty : ls = [] → 2 < start) (count : Nat) :
    searchLocal strict arg (textOf (ls ++ [endLine])) start.toNat count start.toNat false
      = .error .endless := by
  rcases eq_nil_or_concat ls with rfl | hne
  · exact searchLocal_endless_empty (by have := hempty rfl; omega) count _ (by simp)
  · cases count with
    | zero => rfl
    | succ count =>
      have hend : (textOf (ls ++ [endLine])).length ≤ start.toNat + endBytes.length := by
        rw [length_textOf_endLine, endBytes, length_cons, length_cons, length_nil]
        omega
      rw [searchLocal_wrap strict arg count (by simp) hend (by omega)]
      exact searchLocal_endless_at_line (by rintro rfl; simp at hne) hnone (by omega) (count + 1)
        [] ls rfl true

/-- The bound of `findLocal` is no bound for a search that ends at all. -/
theorem findLocal_eq_of_searchEnds {t' : Int32}
    (h : SearchEnds strict arg (textOf (ls ++ [endLine])) start t)
    (hfind : findLocal strict arg (textOf (ls ++ [endLine])) start = .ok t') : t' = t := by
  obtain ⟨count, hcount⟩ := h
  have hlong := searchLocal_mono (textOf_endLine_cases ls) hcount
  have hbound := searchLocal_mono (textOf_endLine_cases ls) hfind count
  rw [Nat.add_comm, hlong] at hbound
  exact (Except.ok.inj hbound).symm

end

/-- Which searches for a local label come to an end. Those that do find no label or an offset in the
    program, within the bound of `findLocal`; the others are in a loop, and that is the only way to
    fail. -/
theorem Store.search_ends_iff {s : Store} {ref : ProgramRef} {p : Program} {lines : List Instr}
    {codes : List Bytes} (hp : s.program? ref = some p)
    (hcodes : List.Forall₂ Instr.StoredAs lines codes)
    (hz : ∀ i ∈ lines, i.hasZeroByte = false)
    (ht : p.buffer.text = codes.flatten ++ endBytes) (start : Int) (arg : Operand) :
    ((∃ t, SearchEnds s.options.strictLabels arg p.buffer.text start t) ↔
      start ≤ codes.flatten.length ∨
      (∃ i ∈ lines, i.answersTo s.options.strictLabels arg = true) ∨
      lines = [] ∧ start ≤ 2) ∧
    (∀ t, SearchEnds s.options.strictLabels arg p.buffer.text start t →
      s.findLocal ref start arg = .ok t ∧
      (t = targetNone ∨ ∃ pc < p.buffer.text.length, t = .ofNat pc)) ∧
    ((¬ ∃ t, SearchEnds s.options.strictLabels arg p.buffer.text start t) →
      ∀ count, searchLocal s.options.strictLabels arg p.buffer.text start.toNat count start.toNat
        false = .error .endless) := by
  obtain ⟨ls, rfl, hanswers⟩ := exists_answering_lines s.options.strictLabels arg hcodes hz
  have htext : p.buffer.text = textOf (ls ++ [endLine]) := by
    rw [ht, textOf_append]
    rfl
  have hlabel : (∃ i ∈ lines, i.answersTo s.options.strictLabels arg = true) ↔
      ∃ l ∈ ls, l.answers s.options.strictLabels arg = true := by
    rw [← mem_map, ← hanswers, mem_map]
  have hempty : lines = [] ↔ ls = [] := by
    rw [← length_eq_zero_iff, ← length_eq_zero_iff, ← length_map, ← hanswers, length_map]
  have hflat : (ls.map bytes).flatten = textOf ls := rfl
  rw [hlabel, hempty, hflat, htext]
  by_cases hgood : start ≤ (textOf ls).length ∨
      (∃ l ∈ ls, l.answers s.options.strictLabels arg = true) ∨ ls = [] ∧ start ≤ 2
  · obtain ⟨t, hfind⟩ := exists_findLocal s.options.strictLabels arg ls hgood
    have hends : SearchEnds s.options.strictLabels arg (textOf (ls ++ [endLine])) start t :=
      ⟨_, hfind⟩
    refine ⟨iff_of_true ⟨t, hends⟩ hgood, fun t' ht' => ?_, fun hno => absurd ⟨t, hends⟩ hno⟩
    obtain rfl := findLocal_eq_of_searchEnds s.options.strictLabels arg ls ht' hfind
    refine ⟨by simpa only [Store.findLocal, hp, htext] using hfind, ?_⟩
    rcases searchLocal_cases (textOf_endLine_cases ls) _ start.toNat false with
      ⟨t', hok, hinside⟩ | hendless
    · obtain rfl := Except.ok.inj (hok.symm.trans hfind)
      exact hinside
    · exact absurd (hendless.symm.trans hfind) (by simp)
  · have hbad := hgood
    simp only [not_or, not_exists, not_and, Bool.not_eq_true, not_le] at hbad
    have hendless := searchLocal_endless s.options.strictLabels arg ls hbad.1 hbad.2.1 hbad.2.2
    have hno : ∀ t, ¬ SearchEnds s.options.strictLabels arg (textOf (ls ++ [endLine])) start
        t := by
      rintro t ⟨count, hcount⟩
      exact absurd ((hendless count).symm.trans hcount) (by simp)
    exact ⟨iff_of_false (fun h => hno _ h.choose_spec) hgood, fun t h => absurd h (hno t),
      fun _ => hendless⟩

/-- A label that does not answer, searched from right behind the END: the search does not end. -/
theorem Store.search_ends_iff_behind_end :
    let p : Program := { buffer := ⟨[0x5C, 1, 0x81, 0x90, 0], [], 59⟩ }
    let s : Store := { options := {}, programs := [p] }
    let arg : Operand := { kind := .num, num := 2 }
    (¬ ∃ t, SearchEnds false arg p.buffer.text 5 t) ∧
      s.findLocal (.user 0) 5 arg = .error .endless := by
  intro p s arg
  have hcodes : List.Forall₂ Instr.StoredAs [.withNum .lbl 1] [[0x5C, 1, 0x81]] :=
    .cons ⟨_, by decide, Or.inl rfl⟩ .nil
  have hp : s.program? (.user 0) = some p := rfl
  have hsearch := Store.search_ends_iff hp hcodes (by decide) rfl 5 arg
  have hno : ¬ ∃ t, SearchEnds false arg p.buffer.text 5 t := by
    refine mt hsearch.1.1 ?_
    decide
  exact ⟨hno, hsearch.2.2 hno _⟩

end Keystroke
