import Keystroke.Proofs.Store.Coherence

set_option autoImplicit false

/-! # The label table

The label table is kept up to date by shifting offsets where an edit adds or removes no label, and
is made anew elsewhere. Either way it is the table of the lines that the user's programs hold
(`Store.Listed`), after every sequence of requests (`Reachable.listed`). So it lists the ENDs and
the global labels in the order of memory, and a name is found where it stands last
(`Reachable.labels_current`). -/

namespace Keystroke

variable {e : Label} {lss : List (List Line)} {pre post : List Program} {pc : Int} {line : Instr}
  {l : Line} {k : Option Nat} {s : Store} {i : Nat}

/-! ## Sequences of requests -/

/-- Numbers are spelled without a zero byte, and no targets are looked up. -/
def labelling : Rules where
  line i := i.command = .number → 0 ∉ i.numberText
  lookups := False

theorem stable_holds (strict : Bool) : Stable labelling strict fun _ p => ∃ ls, p.Holds ls where
  holds h := h
  resolved {s line line'} h hline := by
    obtain ⟨hcommand, hspelling⟩ := Store.resolved?_same hline
    intro hnumber
    rw [hspelling]
    exact h (hcommand ▸ hnumber)
  spelled h hnumber := h hnumber
  empty h := ⟨[], Program.holds_nil h.text⟩
  inserted _ _ _ _ _ hp' := ⟨_, hp'.holds⟩
  deleted _ _ hp' := ⟨_, hp'.holds⟩
  cleared _ hp' := ⟨_, hp'.holds⟩
  opened h := h
  lookedUp hrule := hrule.elim

theorem Store.listed_endBulkLoad (hs : s.Listed) (hread : s.Legible) :
    (Operation.state (endBulkLoad s)).Listed := by
  by_cases h0 : s.loading = 0
  · rwa [endBulkLoad_of_zero h0]
  by_cases h1 : s.loading = 1
  · obtain ⟨ps, es, s', hrun, -, -, -, -, -, hlisted⟩ := endBulkLoad_last h1 hread.programs
      hread.slots
    rwa [hrun]
  · rw [endBulkLoad_inner (by omega)]
    exact ⟨hs.lines⟩

open Operation in
/-- The step: a request keeps the table up to date, whether it succeeds or fails. -/
theorem Request.listed {r : Request} (hs : s.Listed) (hread : s.Legible)
    (hr : r.Obeys labelling s) : (state (r.run s)).Listed := by
  cases hedit : r.isEdit with
  | true =>
    have hedited := r.run_edited hread hr hedit (fun _ _ => (stable_holds false).resolved)
      fun _ => (stable_holds false).spelled
    generalize r.run s = res at hedited
    cases hedited with
    | ok _ _ _ _ hlisted => exact hlisted hs
    | error _ _ => exact ⟨hs.lines⟩
  | false =>
    cases r with
    | beginBulkLoad | openGenerated | closeGenerated => exact ⟨hs.lines⟩
    | endBulkLoad =>
      exact Leads.bind (P := (· = s)) (by rintro _ rfl; exact Store.listed_endBulkLoad hs hread)
        (fun _ => .pure _) s rfl
    | resolve => exact hr.1.elim
    | _ => cases hedit

/-- The run: the table is up to date in every store that requests lead to. -/
theorem Reachable.listed {options : Options} (h : Reachable labelling options s) : s.Listed := by
  have hread {s : Store} (h : Reachable labelling options s) : s.Legible :=
    (h.sound (stable_holds options.strictLabels)).1.legible (stable_holds options.strictLabels)
  induction h with
  | new h => exact (Store.new_cases h).2.2.2.2.2
  | ok h hr hrun ih =>
    have hstep := Request.listed ih (hread h) hr
    rwa [hrun] at hstep
  | error h hr hrun ih =>
    have hstep := Request.listed ih (hread h) hr
    rwa [hrun] at hstep

/-! ## What the table says -/

/-- In a program of the user, a line starts at an offset. -/
def Store.LineIs (s : Store) (i pc : Nat) (line : Instr) : Prop :=
  ∃ p k size, s.programs[i]? = some p ∧ LineAt p.buffer.text k pc ∧
    decodeLine (p.buffer.text.drop pc) = .ok (line, size)

/-- What a line contributes to the label table: an END is listed without a name, and a global label
    with its name. -/
def Instr.listed? (line : Instr) : Option (Option Bytes) :=
  if line.command = .endLine then some none
  else if line.command = .lbl && line.operand.kind = .text then some (some line.operand.text)
  else none

/-- A global label of the name stands in a program of the user. -/
def Store.HasLabel (s : Store) (name : Bytes) (i pc : Nat) : Prop :=
  ∃ line, s.LineIs i pc line ∧ line.command = .lbl ∧ line.operand.kind = .text ∧
    line.operand.text = name

theorem Line.mem_labelEntry {n pc : Nat} :
    e ∈ l.labelEntry n pc ↔ e.program = n ∧ e.pc = pc ∧ l.instr.listed? = some e.name := by
  have hentry : l.labelEntry n pc = l.instr.listed?.toList.map fun name => ⟨name, n, pc⟩ := by
    rw [labelEntry, Instr.listed?, instr_command]
    by_cases hend : l.header.command = .endLine
    · simp [isEnd_iff.2 hend, hend]
    · have hnot : l.isEnd = false := by simpa [isEnd] using hend
      by_cases hlbl : l.header.command = .lbl
      · rw [hlbl] at hend
        have hkind := instr_kind (by rw [hlbl]; decide)
        by_cases htext : l.header.kind = .text
        · simp [hnot, hend, hlbl, htext, hkind]
        · have hother : l.instr.operand.kind ≠ .text := by
            rw [hkind]
            split
            · decide
            · exact htext
          simp [hnot, hend, hlbl, htext, hother]
      · simp [hnot, hend, hlbl]
  rw [hentry]
  simp only [List.mem_map, Option.mem_toList]
  constructor
  · rintro ⟨name, hname, rfl⟩
    exact ⟨rfl, rfl, hname⟩
  · rintro ⟨rfl, hpc, hname⟩
    exact ⟨e.name, hname, by rw [← hpc]⟩

theorem lineIs_iff (h : List.Forall₂ Program.Holds s.programs lss) {pc : Nat} :
    s.LineIs i pc line ↔ ∃ ls front l back, lss[i]? = some ls ∧
      ls ++ [Line.endLine] = front ++ l :: back ∧ (textOf front).length = pc ∧ l.instr = line := by
  have hdecode {p : Program} {ls front back : List Line} {l : Line} (hl : p.Holds ls)
      (heq : ls ++ [Line.endLine] = front ++ l :: back) :
      decodeLine (p.buffer.text.drop (textOf front).length) = .ok (l.instr, l.size) := by
    rw [hl.text, heq, drop_textOf, textOf_cons, l.decodeLine_append]
  constructor
  · rintro ⟨p, k, size, hp, hat, hline⟩
    obtain ⟨hi, rfl⟩ := List.getElem?_eq_some_iff.1 hp
    have hi' : i < lss.length := h.length_eq ▸ hi
    have hl : s.programs[i].Holds lss[i] := h.get hi hi'
    rw [hl.text] at hat
    obtain ⟨front, l, back, heq, -, rfl⟩ := lineAt_textOf.1 hat
    rw [hdecode hl heq] at hline
    exact ⟨_, front, l, back, List.getElem?_eq_getElem hi', heq, rfl,
      (Prod.mk.inj (Except.ok.inj hline)).1⟩
  · rintro ⟨ls, front, l, back, hls, heq, rfl, rfl⟩
    obtain ⟨hi', rfl⟩ := List.getElem?_eq_some_iff.1 hls
    have hi : i < s.programs.length := h.length_eq ▸ hi'
    have hl : s.programs[i].Holds lss[i] := h.get hi hi'
    refine ⟨_, front.length, l.size, List.getElem?_eq_getElem hi, ?_, hdecode hl heq⟩
    rw [hl.text]
    exact lineAt_textOf.2 ⟨front, l, back, heq, rfl, rfl⟩

theorem Store.Listed.mem_labels (h : s.Listed) :
    e ∈ s.labels ↔ ∃ pc : Nat, e.pc = pc ∧
      ∃ line, s.LineIs e.program pc line ∧ line.listed? = some e.name := by
  obtain ⟨lss, hlss, htable⟩ := h.lines
  rw [htable, mem_tableOf]
  simp only [lineIs_iff hlss, mem_labelsOf, Line.mem_labelEntry, Nat.zero_le, Nat.sub_zero,
    Nat.zero_add, true_and]
  constructor
  · rintro ⟨ls, hls, front, l, back, heq, hpc, hname⟩
    exact ⟨_, hpc, _, ⟨ls, front, l, back, hls, heq, rfl, rfl⟩, hname⟩
  · rintro ⟨pc, hpc, line, ⟨ls, front, l, back, hls, heq, rfl, rfl⟩, hname⟩
    exact ⟨ls, hls, front, l, back, heq, hpc, hname⟩

theorem Store.Listed.pairwise (h : s.Listed) : s.labels.Pairwise Label.Before := by
  obtain ⟨lss, -, htable⟩ := h.lines
  rw [htable]
  exact pairwise_tableOf 0 lss

theorem Store.Listed.hasLabel_iff (h : s.Listed) {name : Bytes} {pc : Nat} :
    s.HasLabel name i pc ↔ (⟨some name, i, pc⟩ : Label) ∈ s.labels := by
  have hname (line : Instr) : line.listed? = some (some name) ↔
      line.command = .lbl ∧ line.operand.kind = .text ∧ line.operand.text = name := by
    unfold Instr.listed?
    split
    · next hend =>
      have hne : line.command ≠ .lbl := by
        rw [hend]
        decide
      simp [hne]
    · split
      · next hlabel =>
        simp only [Bool.and_eq_true, decide_eq_true_eq] at hlabel
        simp [hlabel]
      · next hlabel =>
        simp only [Bool.and_eq_true, decide_eq_true_eq, not_and] at hlabel
        simp only [reduceCtorEq, false_iff, not_and]
        exact fun hc hk => absurd hk (hlabel hc)
  simp only [h.mem_labels, Store.HasLabel, hname, Nat.cast_inj, exists_eq_left']

/-- Of the entries that a table in the order of memory has with a property, the last one is found
    from its end. -/
theorem find?_reverse_iff {labels : List Label} (h : labels.Pairwise Label.Before)
    {P : Label → Bool} :
    labels.reverse.find? P = some e ↔
      e ∈ labels ∧ P e = true ∧ ∀ f ∈ labels, P f = true → f = e ∨ f.Before e := by
  induction labels using List.reverseRecOn with
  | nil => simp
  | append_singleton labels x ih =>
    obtain ⟨hfront, -, hbefore⟩ := List.pairwise_append.1 h
    have hlast (f : Label) (hf : f ∈ labels) : f.Before x := hbefore f hf x (by simp)
    have hasymm {f : Label} (hf : f.Before x) (hx : x.Before f) : False := by
      unfold Label.Before at hf hx
      omega
    rw [List.reverse_append, List.reverse_singleton, List.singleton_append, List.find?_cons]
    cases hx : P x with
    | true =>
      simp only [Option.some.injEq]
      constructor
      · rintro rfl
        refine ⟨by simp, hx, fun f hf _ => ?_⟩
        rcases List.mem_append.1 hf with hf | hf
        · exact Or.inr (hlast f hf)
        · exact Or.inl (List.mem_singleton.1 hf)
      · rintro ⟨he, -, hall⟩
        rcases hall x (by simp) hx with rfl | hxe
        · rfl
        · rcases List.mem_append.1 he with he | he
          · exact (hasymm (hlast e he) hxe).elim
          · exact (List.mem_singleton.1 he).symm
    | false =>
      simp only [ih hfront]
      constructor
      · rintro ⟨he, hpe, hall⟩
        refine ⟨List.mem_append_left _ he, hpe, fun f hf hpf => ?_⟩
        rcases List.mem_append.1 hf with hf | hf
        · exact hall f hf hpf
        · rw [List.mem_singleton.1 hf, hx] at hpf
          exact absurd hpf (by simp)
      · rintro ⟨he, hpe, hall⟩
        refine ⟨?_, hpe, fun f hf => hall f (List.mem_append_left _ hf)⟩
        rcases List.mem_append.1 he with he | he
        · exact he
        · rw [List.mem_singleton.1 he, hx] at hpe
          exact absurd hpe (by simp)

namespace Store.Listed

variable {name : Bytes}

theorem exists_hasLabel (h : s.Listed) (he : e ∈ s.labels) (hname : e.name = some name) :
    ∃ pc : Nat, e = ⟨some name, e.program, pc⟩ ∧ s.HasLabel name e.program pc := by
  obtain ⟨pc, hpc, -⟩ := h.mem_labels.1 he
  have heq : e = ⟨some name, e.program, pc⟩ := by rw [← hname, ← hpc]
  refine ⟨pc, heq, h.hasLabel_iff.2 ?_⟩
  rwa [← heq]

theorem findGlobal?_eq_some_iff (h : s.Listed) {pc : Nat} :
    s.findGlobal? name = some (ProgramRef.user i, (pc : Int)) ↔
      s.HasLabel name i pc ∧ ∀ j q, s.HasLabel name j q → j < i ∨ j = i ∧ q ≤ pc := by
  simp only [findGlobal?, Option.map_eq_some_iff, find?_reverse_iff h.pairwise, decide_eq_true_eq,
    Prod.mk.injEq, ProgramRef.user.injEq, Nat.cast_inj]
  constructor
  · rintro ⟨e, ⟨he, hname, hall⟩, rfl, hpc⟩
    obtain ⟨pc', heq, hlabel⟩ := h.exists_hasLabel he hname
    obtain rfl : pc' = pc := by
      rw [heq] at hpc
      exact Nat.cast_inj.1 hpc
    refine ⟨hlabel, fun j q hq => ?_⟩
    rcases hall _ (h.hasLabel_iff.1 hq) rfl with hsame | hbefore
    · obtain ⟨-, rfl, hq⟩ := Label.mk.inj (hsame.trans heq)
      exact Or.inr ⟨rfl, by omega⟩
    · rw [heq] at hbefore
      simp only [Label.Before, Nat.cast_lt] at hbefore
      omega
  · rintro ⟨hlabel, hall⟩
    refine ⟨⟨some name, i, pc⟩, ⟨h.hasLabel_iff.1 hlabel, rfl, fun f hf hname => ?_⟩, rfl, rfl⟩
    obtain ⟨q, heq, hq⟩ := h.exists_hasLabel hf hname
    rcases hall _ _ hq with hlt | ⟨hi, hle⟩
    · exact Or.inr (Or.inl hlt)
    · rcases Nat.eq_or_lt_of_le hle with rfl | hlt
      · exact Or.inl (by rw [heq, hi])
      · refine Or.inr (Or.inr ⟨hi, ?_⟩)
        rw [heq]
        exact Nat.cast_lt.2 hlt

theorem findGlobal?_eq_none_iff (h : s.Listed) :
    s.findGlobal? name = none ↔ ∀ i pc, ¬ s.HasLabel name i pc := by
  simp only [findGlobal?, Option.map_eq_none_iff, List.find?_eq_none, List.mem_reverse,
    decide_eq_true_eq]
  constructor
  · intro hnone i pc hlabel
    exact hnone _ (h.hasLabel_iff.1 hlabel) rfl
  · intro hnone e he hname
    obtain ⟨pc, -, hlabel⟩ := h.exists_hasLabel he hname
    exact hnone _ _ hlabel

end Store.Listed

/-- After every sequence of requests the label table is the one that would be made anew. It lists
    the ENDs and the global labels of the user's programs, each once and in the order of memory, and
    a name is found at its last label, or not at all if no program has such a label. -/
theorem Reachable.labels_current {options : Options} {s : Store}
    (h : Reachable labelling options s) :
    labelTable 0 s.programs = .ok s.labels ∧
      s.labels.Pairwise Label.Before ∧
      (∀ e, e ∈ s.labels ↔ ∃ pc : Nat, e.pc = pc ∧
        ∃ line, s.LineIs e.program pc line ∧ line.listed? = some e.name) ∧
      ∀ name,
        (∀ i pc : Nat, s.findGlobal? name = some (ProgramRef.user i, (pc : Int)) ↔
          s.HasLabel name i pc ∧ ∀ j q, s.HasLabel name j q → j < i ∨ j = i ∧ q ≤ pc) ∧
        (s.findGlobal? name = none ↔ ∀ i pc, ¬ s.HasLabel name i pc) := by
  have hlisted := h.listed
  obtain ⟨lss, hlss, htable⟩ := hlisted.lines
  exact ⟨by rw [htable, labelTable_of_holds hlss], hlisted.pairwise, fun _ => hlisted.mem_labels,
    fun _ => ⟨fun _ _ => hlisted.findGlobal?_eq_some_iff, hlisted.findGlobal?_eq_none_iff⟩⟩

/-- A store whose program has a global label behind the lines of other bytes. -/
def storeWithLabel (front : Bytes) (edits : Nat) : Store :=
  { storeOf (front ++ [0x5C, 4, 1, 65] ++ endBytes) true edits with
    labels := [⟨some (utf8 "A"), 0, front.length⟩, ⟨none, 0, front.length + 4⟩] }

/-- The label was put in first, and then shifted by a line put in above it. It is found where it
    stands, and no other name is found. -/
theorem shiftedLabel_current :
    let s := storeWithLabel [0x5C, 1, 0x81] 2
    Reachable labelling {} s ∧ labelTable 0 s.programs = .ok s.labels ∧
      s.HasLabel (utf8 "A") 0 3 ∧ ∀ i pc, ¬ s.HasLabel (utf8 "B") i pc := by
  intro s
  have hnew : Store.new {} = .ok (storeOf endBytes false 0) := by cbv
  have hlabel : (Request.insert (.user 0) 0 (.withName .lbl (utf8 "A"))).run
      (storeOf endBytes false 0) = .ok (.program (.user 0)) (storeWithLabel [] 1) := by
    decide +kernel
  have habove : (Request.insert (.user 0) 0 (.withNum .lbl 1)).run (storeWithLabel [] 1)
      = .ok (.program (.user 0)) s := by decide +kernel
  have h : Reachable labelling {} s := by
    refine .ok (.ok (.new hnew) ?_ hlabel) ?_ habove
    · exact ⟨⟨some 0, _, 0, rfl, by decide, rfl⟩, fun hn => absurd hn (by decide)⟩
    · exact ⟨⟨some 0, _, 0, rfl, by decide, rfl⟩, fun hn => absurd hn (by decide)⟩
  obtain ⟨htable, -, -, hfind⟩ := Reachable.labels_current h
  exact ⟨h, htable, (((hfind (utf8 "A")).1 0 3).1 (by decide)).1,
    (hfind (utf8 "B")).2.1 (by decide)⟩

end Keystroke
