import Keystroke.Proofs.Store.Accounts

set_option autoImplicit false

/-! # Cutting a program and joining it again

An END that was put in can always be taken out: the first half of a program that was cut keeps the
buffer of the whole, so that joining takes no memory (`Denied.lt`), and gives back what the second
half took. -/

namespace Keystroke

open Operation

namespace Store

variable {s t : Store} {p q r : Program} {pre post : List Program} {front back : List Line}

theorem Denied.lt {held need : Nat} {e : Error} (h : s.Denied held need e) (hheld : 0 < held) :
    held < need :=
  h.more.resolve_left hheld.ne'

/-- A program is joined with the next one without more memory if its buffer has the room. -/
theorem mergeNext_of_room (hps : s.programs = pre ++ p :: q :: post) (hl : p.Holds front)
    (hq : q.Holds back) (hread : Readable s.programs)
    (hroom : p.buffer.text.length + (textOf back).length ≤ p.buffer.capacity) :
    ∃ r s', mergeNext (.user pre.length) p s = .ok () s' ∧
      s'.Agree { s with programs := pre ++ r :: post } ∧
      Cleared (front ++ back) p.refs p.generated r ∧
      r.buffer.capacity = p.buffer.capacity ∧ s.Balanced s' ∧ s'.Listed := by
  have hheld : 0 < p.buffer.capacity := by
    have hlength := hl.length
    omega
  rcases mergeNext_cases hps hl hq hread with
    ⟨r, s', hrun, hs', hr, hgranted, hbalanced, hlisted⟩ | ⟨e, used, -, hdenied⟩
  · refine ⟨r, s', hrun, hs', hr, hgranted.fresh.resolve_right fun hfresh => ?_, hbalanced, hlisted⟩
    rcases hfresh.1 with hnone | hmore <;> omega
  · have hmore := hdenied.lt hheld
    omega

theorem Balanced.used_eq {u : Store} (hst : s.Balanced t) (htu : t.Balanced u)
    (hword : inWord s.used = s.used) (htotal : u.total = s.total) : u.used = s.used := by
  have hused := hst hword
  have hword' : inWord t.used = t.used := by
    rw [hused]
    exact Int.bmod_bmod ..
  rw [htu hword', hused, inWord_add_inWord, htotal,
    show s.used + ((t.total : Int) - s.total) + (s.total - t.total) = s.used by omega, hword]

/-- Taking out an END that was put in undoes it. The programs are joined, whatever memory there is,
    and then the store has the programs that it had, except that the targets of the program that was
    cut are forgotten, and the same labels and memory in use. -/
theorem delete_insert_end {i k : Nat} {pc : Int} {line : Instr} {ref : ProgramRef} (hs : s.Listed)
    (hword : inWord s.used = s.used) (hat : s.At (.user i) pc (some k))
    (hend : line.command = .endLine) (hrun : insert (.user i) pc line s = .ok ref t) :
    ∃ (u : Store) (p q : Program) (ls : List Line), delete (.user i) pc t = .ok () u ∧
      s.programs[i]? = some p ∧ p.Holds ls ∧ q.Holds (clearAll ls) ∧
      u.Agree { s with programs := s.programs.set i q } ∧ u.labels = s.labels ∧
      u.used = s.used := by
  have hread := hs.readable
  obtain ⟨p, n, hp, hn, rfl⟩ := id hat
  obtain ⟨h0, hget⟩ := program?_user_eq_some_iff.1 hp
  obtain ⟨ls, hl⟩ := hread p (List.mem_of_getElem? hget)
  obtain ⟨front, back, rfl, hplace, -⟩ := exists_place hp hl hat
  obtain rfl : n = (textOf front).length := by
    rcases hplace with h | ⟨h, -⟩ <;> omega
  have he : s.Editable p := by
    by_contra hlocked
    rw [insert_of_not_editable hp hlocked] at hrun
    cases hrun
  have hinserted : Inserted s (.user i) p front back line id (.ok ref t) :=
    hrun ▸ inserted_of_place hp hl hplace
      (fun h => absurd (hend.symm.trans h) (by decide)) fun _ _ _ => hread
  cases hinserted with
  | line hres hne =>
    exact absurd ((resolved?_same hres).1.trans hend) hne
  | @split pre post q r _ _ hps href ht hq hr hcapacity _ hbalanced hlisted =>
    obtain rfl : i = pre.length := by simpa using href
    have hqp : t.program? (.user pre.length) = some q := program?_of_split ht.programs
    have he' : t.Editable q := by
      rw [Editable, hq.generated, ht.generatedEdits]
      exact he
    -- The first half has the buffer of the whole, which had room for all the lines.
    obtain ⟨w, u, hmerge, hu, hw, hwc, hback, hlisted'⟩ := mergeNext_of_room ht.programs hq.holds
      hr.holds hlisted.readable (by
        have hlength := Buffer.length_text_le_capacity p.buffer
        rw [hl.length, textOf_append, List.length_append] at hlength
        rw [hcapacity, hq.holds.length, length_textOf_clearAll, length_textOf_clearAll]
        omega)
    have hagree : u.Agree { s with programs := pre ++ w :: post } :=
      ⟨hu.options.trans ht.options, hu.programs, hu.equations.trans ht.equations,
        hu.loading.trans ht.loading, hu.generatedEdits.trans ht.generatedEdits⟩
    have hw' : w.Holds (clearAll (front ++ back)) := by
      simpa only [← clearAll_append, clearAll_clearAll] using hw.holds
    refine ⟨u, p, w, front ++ back, ?_, hget, hl, hw', ?_, ?_, ?_⟩
    · have hdelete := delete_at_line hqp he' hq.holds.textEnd
      rw [length_textOf_clearAll, if_pos Line.isEnd_endLine] at hdelete
      rw [hdelete, hmerge]
    · simpa [hps] using hagree
    · have hset := hs.clearAll hp hl hw'
      rw [setProgram_of_split w hps] at hset
      obtain ⟨lss, hlss, hlabels⟩ := hset.lines
      rw [hlabels]
      exact hlisted'.labels_eq (hagree.programs ▸ hlss)
    · refine hbalanced.used_eq hback hword ?_
      rw [hagree.total, ← setProgram_of_split w hps]
      have htotal := total_setProgram hp w
      omega

/-- Two lines fill the buffer of a program. Cutting it between them takes most of the memory that is
    left, and joining gives it back. -/
theorem delete_insert_end_filled :
    let s := Store.filled 2 8 [] 8
    let half (spare : Bytes) (fresh : Nat) : Program :=
      { buffer := ⟨[0x5C, 0x01, 0x81, 0x90, 0x00], spare, fresh⟩, cachesClear := true }
    let t := { s with
      programs := [half [0x81, 0x90, 0x00] 0, half [] 3]
      labels := [⟨none, 0, 3⟩, ⟨none, 1, 3⟩]
      used := 16
      edits := 3 }
    insert (.user 0) 3 (.plain .endLine) s = .ok (.user 1) t ∧
      ∃ u, delete (.user 0) 3 t = .ok () u ∧ u.labels = s.labels ∧ u.used = s.used := by
  intro s half t
  let label : Line := ⟨[0x5C, 0x01, 0x81], rfl⟩
  have hlisted : s.Listed := ⟨[[label, label]], .cons ⟨rfl, by decide⟩ .nil, by decide⟩
  have hrun : insert (.user 0) 3 (.plain .endLine) s = .ok (.user 1) t := by decide +kernel
  obtain ⟨u, -, -, -, hjoin, -, -, -, -, hlabels, hused⟩ := delete_insert_end (k := 1)
    hlisted rfl ⟨_, 3, rfl, by decide, rfl⟩ rfl hrun
  exact ⟨hrun, u, hjoin, hlabels, hused⟩

end Store

end Keystroke
