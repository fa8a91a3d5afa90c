import Keystroke.Proofs.Store.Kept

set_option autoImplicit false

/-! # Keeping within the limit

Memory in use stays within the limit of the settings whatever an edit does, and inside a bracket
no edit is counted (`Store.Steady`). -/

namespace Keystroke

namespace Store

open Operation

/-- The stores have the same settings and open brackets, and the same counts of memory and of
    edits. -/
structure SameMeters (s t : Store) : Prop where
  options : t.options = s.options
  used : t.used = s.used
  loading : t.loading = s.loading
  generatedEdits : t.generatedEdits = s.generatedEdits
  edits : t.edits = s.edits

theorem SameMeters.trans {s t u : Store} (h : s.SameMeters t) (h' : t.SameMeters u) :
    s.SameMeters u :=
  ⟨h'.options.trans h.options, h'.used.trans h.used, h'.loading.trans h.loading,
    h'.generatedEdits.trans h.generatedEdits, h'.edits.trans h.edits⟩

theorem sameMeters_setProgram (s : Store) (ref : ProgramRef) (p : Program) :
    s.SameMeters (s.setProgram ref p) := by
  cases ref <;> exact ⟨rfl, rfl, rfl, rfl, rfl⟩

theorem sameMeters_rebuildLabels (s : Store) : s.SameMeters (state (rebuildLabels s)) := by
  unfold rebuildLabels
  rw [get_bind]
  cases labelTable 0 s.programs <;> exact ⟨rfl, rfl, rfl, rfl, rfl⟩

theorem sameMeters_shiftLabels (s : Store) (ref : ProgramRef) (pc delta : Int) :
    s.SameMeters (state (shiftLabels ref pc delta s)) := by
  cases ref <;> exact ⟨rfl, rfl, rfl, rfl, rfl⟩

/-- Memory in use is a word, and within the limit of the settings if they have one. -/
structure Within (o : Options) (s : Store) : Prop where
  options : s.options = o
  word : inWord s.used = s.used
  limit : 0 < o.memoryLimit → s.used ≤ o.memoryLimit

/-- Memory in use is within the limit, and inside a bracket no edit has been counted. -/
structure Steady (o : Options) (edits : Nat) (s : Store) : Prop extends Within o s where
  edits : s.loading ≠ 0 ∨ s.generatedEdits ≠ 0 → s.edits = edits

section

variable {o : Options} {n : Nat}

theorem SameMeters.within {s t : Store} (h : s.SameMeters t) (hs : s.Within o) : t.Within o :=
  ⟨h.options.trans hs.options, by rw [h.used]; exact hs.word, by rw [h.used]; exact hs.limit⟩

theorem SameMeters.steady {s t : Store} (h : s.SameMeters t) (hs : s.Steady o n) :
    t.Steady o n := by
  refine ⟨h.within hs.toWithin, ?_⟩
  rw [h.loading, h.generatedEdits, h.edits]
  exact hs.edits

theorem leads_allocate_steady (wanted least held : Nat) :
    Leads (Steady o n) (allocate wanted least held) (Steady o n) := by
  intro s hs
  have hcharged {m : Nat} (h : 0 < s.options.memoryLimit →
      inWord (s.used + m) ≤ s.options.memoryLimit) :
      Steady o n { s with used := inWord (s.used + m) } := by
    rw [hs.options] at h
    exact ⟨⟨hs.options, by simp only [inWord, Int.bmod_bmod], h⟩, hs.edits⟩
  unfold allocate
  rcases s.charge?_cases (wanted - held) with ⟨hfirst, hlimit⟩ | ⟨hfirst, -⟩ <;> rw [hfirst]
  · simp only
    split <;> exact hcharged hlimit
  · rcases s.charge?_cases (least - held) with ⟨hsecond, hlimit⟩ | ⟨hsecond, -⟩ <;> rw [hsecond]
    · exact hcharged hlimit
    · exact hs

theorem leads_edited_steady : Leads (Steady o n) edited (Steady o n) := by
  intro s hs
  change Steady o n (if s.loading = 0 && s.generatedEdits = 0 then
    { s with edits := s.edits + 1 } else s)
  split
  · next hnone =>
    refine ⟨⟨hs.options, hs.word, hs.limit⟩, fun hbracket => ?_⟩
    simp only [Bool.and_eq_true, decide_eq_true_eq] at hnone
    exact absurd hbracket (by simp [hnone.1, hnone.2])
  · exact hs

/-- Edits take memory within the limit, and in a bracket they are not counted. -/
theorem kept_steady (ref : ProgramRef) : Kept (Steady o n) (fun _ => True) ref where
  read _ _ := trivial
  write hs _ := (sameMeters_setProgram _ ref _).steady hs
  allocate := leads_allocate_steady
  rebuildLabels _ hs := (sameMeters_rebuildLabels _).steady hs
  shiftLabels pc delta _ hs := (sameMeters_shiftLabels _ ref pc delta).steady hs
  edited := leads_edited_steady

theorem cuts_steady (ref : ProgramRef) : Cuts (Steady o n) (fun _ => True) ref where
  cut _ hs _ _ := ⟨⟨hs.options, hs.word, hs.limit⟩, hs.edits⟩
  join _ hs := ⟨⟨hs.options, hs.word, hs.limit⟩, hs.edits⟩
  next _ := (kept_steady _).invalidate true

theorem Within.steady {s : Store} (h : s.Within o) : s.Steady o s.edits := ⟨h, fun _ => rfl⟩

end

end Store

end Keystroke
