import Keystroke.Proofs.Compile.Storing
import Keystroke.Proofs.Store.Accounts
import Keystroke.Snapshot.Session

set_option autoImplicit false

/-! # Loading programs

The bytes that are saved of a program are its lines as they were written, with every target unknown
(`Store.canonicalText_of_recorded`). Loading puts the lines of each program behind each other, and
an END between two programs cuts the second off. So a store with one empty program holds
exactly the saved programs afterwards, with the label table of their lines (`bulkLoad_eq_ok`). -/

namespace Keystroke

open Operation List Line

variable {p' : Program} {n m offset : Nat} {e : Error} {code : Bytes} {α : Type}
  {Q : α → Store → Prop} {x : Edit α}
variable {i : Instr} {ls : List Line} {s : Store} {p : Program} {ps : List Program}
  {lss : List (List Line)} {l : Line}

/-! ## Lines that were written -/

namespace Instr

theorem normalize_withTarget (h : i.command ≠ .number) (t : Int32) :
    (i.withTarget t).normalize = i.normalize.withTarget t := by
  have h' : (i.withTarget t).command ≠ .number := h
  rw [normalize, normalize, if_pos h, if_pos h']
  by_cases hneg : (i.operand.kind = .num && i.operand.num < 0) = true
  · rw [if_pos hneg]
    exact if_pos hneg
  · rw [if_neg hneg]
    exact if_neg hneg

theorem encode_withTarget (h : i.command ≠ .number) (t : Int32) :
    (i.withTarget t).encode = i.encode := by
  have hsame := normalize_withTarget h t
  exact encode_congr rfl (by rw [hsame]; rfl) (by rw [hsame]; rfl) fun hn => absurd hn h

theorem stored_placeable (h : i.WellFormed) : i.stored.Placeable := by
  obtain ⟨bytes, hcode⟩ := h.storable
  have hencode : i.stored.encode = .ok bytes := by rw [encode_stored h.signed h.real, hcode]
  by_cases hn : i.command = .number
  · rw [stored_of_number hn] at hencode ⊢
    refine ⟨⟨by simp, fun _ hzero => ?_⟩, ⟨bytes, hencode⟩, h.notEnd⟩
    obtain ⟨b, hb, hread⟩ := mem_map.1 hzero
    have hb0 : b = 0 := by
      unfold readMark at hread
      split at hread
      · cases hread
      · exact hread
    exact h.spelling hn (mem_keptSpelling (hb0 ▸ hb))
  · rw [stored_of_ne_number hn] at hencode ⊢
    refine ⟨⟨?_, fun hnumber => absurd hnumber hn⟩, ⟨bytes, hencode⟩, h.notEnd⟩
    rw [kind_relevant h.signed]
    exact h.kind_ne

end Instr

namespace Line

/-- A line as it was written, but for its target. -/
def Recorded (l : Line) : Prop := (l.withTarget targetUnknown).Fresh

theorem Fresh.writes (h : l.Fresh) : l.instr.Placeable ∧ l.Writes l.instr := by
  obtain ⟨i, hi, hcode⟩ := h
  obtain ⟨m, hbytes, -, hinstr⟩ := hi.exists_line hcode
  obtain rfl : m = l := Line.ext hbytes
  rw [hinstr]
  -- What is read is the line in its stored form, which has the same bytes.
  have hplace := Instr.stored_placeable hi
  obtain ⟨m', hwrites⟩ := hplace.exists_writes
  have hsame : i.stored.encode = .ok m.bytes := by
    rw [Instr.encode_stored hi.signed hi.real, hcode]
  obtain rfl : m' = m := Line.ext (Except.ok.inj (hwrites.code.symm.trans hsame))
  exact ⟨hplace, hwrites⟩

theorem Recorded.encode_instr (h : l.Recorded) :
    l.instr.encode = .ok (l.withTarget targetUnknown).bytes := by
  rw [← h.writes.2.code]
  cases hc : l.header.cached with
  | false => rw [withTarget_of_not_cached _ hc]
  | true =>
    rw [instr_withTarget _ hc, Instr.encode_withTarget]
    rw [instr_command]
    exact Header.command_ne_number hc

/-- A line without its target is read as the line was, but for the target. -/
theorem instr_clear (l : Line) :
    (l.withTarget targetUnknown).instr = l.instr.withTarget targetUnknown := by
  cases hc : l.header.cached with
  | true => exact instr_withTarget _ hc
  | false =>
    rw [withTarget_of_not_cached _ hc]
    have htarget : l.instr.operand.target = targetUnknown := target_of_not_cached hc
    simp only [Instr.withTarget, ← htarget]

end Line

theorem map_instr_clearAll (ls : List Line) :
    (clearAll ls ++ [endLine]).map instr
      = ((ls ++ [endLine]).map instr).map (·.withTarget targetUnknown) := by
  have hend : endLine.instr.withTarget targetUnknown = endLine.instr := by decide
  simp only [clearAll, map_append, map_map, map_cons, map_nil, hend]
  congr 1
  exact map_congr_left fun l _ => l.instr_clear

/-! ## Saved programs -/

/-- The program consists of lines as they were written, but for their targets, and its END. -/
def Program.Recorded (p : Program) (ls : List Line) : Prop := p.Holds ls ∧ ∀ l ∈ ls, l.Recorded

/-- The bytes of a program with these lines. -/
def codeOf (ls : List Line) : Bytes := textOf (ls ++ [endLine])

theorem length_codeOf (ls : List Line) : (codeOf ls).length = (textOf ls).length + 2 := by
  simp [codeOf, endBytes]

theorem encode_lines (h : ∀ l ∈ ls, l.Recorded) :
    ((ls ++ [endLine]).map instr).mapM Instr.encode
      = .ok ((clearAll ls ++ [endLine]).map bytes) := by
  induction ls with
  | nil => rfl
  | cons l ls ih =>
    obtain ⟨hl, hrest⟩ := forall_mem_cons.1 h
    have hmore := ih hrest
    simp only [cons_append, map_cons, clearAll_cons, mapM_cons, hl.encode_instr, hmore]
    rfl

theorem Store.canonicalText_of_recorded {ref : ProgramRef} (hp : s.program? ref = some p)
    (h : p.Recorded ls) : s.canonicalText ref = .ok (codeOf (clearAll ls)) := by
  simp only [Store.canonicalText, Store.lines_of_holds hp h.1, bind, Except.bind, encode_lines h.2]
  simp only [Except.mapError, pure, Except.pure, codeOf, textOf, flatMap_def]

/-! ## Loading -/

namespace Store

/-- A program of the user with these lines, whose targets are unknown. -/
structure LoadedAs (p : Program) (ls : List Line) : Prop where
  holds : p.Holds ls
  unknown : ∀ l ∈ ls, l.target = targetUnknown
  generated : p.generated = false

/-- The store in the middle of a bulk load, after these programs. -/
structure Filling (lss : List (List Line)) (s : Store) : Prop where
  loading : s.loading = 1
  equations : s.equations = []
  programs : List.Forall₂ LoadedAs s.programs lss

theorem LoadedAs.empty (h : Empty false p) : LoadedAs p [] :=
  ⟨Program.holds_nil h.text, by simp, h.generated⟩

theorem LoadedAs.cleared {refs : Nat} (h : Cleared ls refs false p)
    (hunknown : ∀ l ∈ ls, l.target = targetUnknown) : LoadedAs p ls := by
  have hholds := h.holds
  rw [clearAll_of_unknown hunknown] at hholds
  exact ⟨hholds, hunknown, h.generated⟩

theorem LoadedAs.forall_holds (h : List.Forall₂ LoadedAs ps lss) :
    List.Forall₂ Program.Holds ps lss :=
  h.imp fun _ _ hp => hp.holds

theorem LoadedAs.readable (h : List.Forall₂ LoadedAs ps lss) : Readable ps := by
  intro p hp
  obtain ⟨ls, -, hls⟩ := exists_left_of_mem h.flip hp
  exact ⟨ls, hls.holds⟩

namespace Filling

variable {s' : Store} {done : List (List Line)} {front : List Line}

theorem of_agree (h : s.Filling lss) (hs : s.Agree s') : s'.Filling lss :=
  ⟨hs.loading.symm.trans h.loading, hs.equations.symm.trans h.equations, hs.programs ▸ h.programs⟩

/-- A line goes in behind the last one. -/
theorem inserted {i : Instr} {pc : Int} (h : s.Filling (done ++ [front])) (hpc : IsLast front pc)
    (hz : i.command = .number → 0 ∉ i.numberText) :
    ∃ ps p, s.programs = ps ++ [p] ∧ ps.length = done.length ∧ List.Forall₂ LoadedAs ps done ∧
      LoadedAs p front ∧ Inserted s (.user done.length) p front [] i
        (placed (.user done.length) i (textOf front).length)
        (insertAfter (.user done.length) pc i s) := by
  have hdone := forall₂_take_append _ _ _ h.programs
  have hlast := forall₂_drop_append _ _ _ h.programs
  obtain ⟨p, rest, hp, hrest, hdrop⟩ := forall₂_cons_right_iff.1 hlast
  obtain rfl := forall₂_nil_right_iff.1 hrest
  have hps : s.programs = s.programs.take done.length ++ [p] := by
    rw [← hdrop, take_append_drop]
  refine ⟨_, p, hps, hdone.length_eq, hdone, hp, ?_⟩
  rw [← hdone.length_eq]
  exact inserted_last (program?_of_split hps) hp.holds hpc hz fun _ _ _ =>
    LoadedAs.readable h.programs

/-- The program that is cut is the last one. -/
theorem eq_of_split {pre post : List Program} (hps : s.programs = ps ++ [p])
    (hsplit : s.programs = pre ++ p :: post)
    (hpre : ProgramRef.user ps.length = .user pre.length) : ps = pre ∧ [] = post := by
  obtain ⟨rfl, hpost⟩ := append_inj (hps.symm.trans hsplit) (by simpa using hpre)
  exact ⟨rfl, by simpa using hpost⟩

theorem line (h : s.Filling (done ++ [front])) (hps : s.programs = ps ++ [p])
    (hdone : List.Forall₂ LoadedAs ps done) (hp : LoadedAs p front) (hl : l.target = targetUnknown)
    (hs' : s'.Agree (s.setProgram (.user ps.length) p'))
    (hp' : p.Settled s.loading (front ++ [l]) p') : s'.Filling (done ++ [front ++ [l]]) := by
  rw [setProgram_of_split p' hps] at hs'
  have hunknown : ∀ m ∈ front ++ [l], m.target = targetUnknown :=
    forall_mem_put hl (by simpa using hp.unknown)
  refine ⟨hs'.loading.trans h.loading, hs'.equations.trans h.equations, ?_⟩
  rw [hs'.programs]
  exact rel_append hdone
    (.cons ⟨hp'.holds_of_unknown hunknown, hunknown, hp'.generated.trans hp.generated⟩ .nil)

theorem split {q r : Program} (h : s.Filling (done ++ [front]))
    (hdone : List.Forall₂ LoadedAs ps done) (hp : LoadedAs p front)
    (hs' : s'.Agree { s with programs := ps ++ [q, r] }) (hq : Cleared front p.refs p.generated q)
    (hr : Cleared [] 0 false r) : s'.Filling (done ++ [front] ++ [[]]) := by
  rw [hp.generated] at hq
  refine ⟨hs'.loading.trans h.loading, hs'.equations.trans h.equations, ?_⟩
  rw [hs'.programs, append_assoc]
  exact rel_append hdone (.cons (.cleared hq hp.unknown) (.cons (.cleared hr (by simp)) .nil))

end Filling

/-! ### Memory for what is loaded -/

end Store

namespace Options

/-- The capacity that the buffer of a program of `n` bytes has at most after it was loaded. -/
def roomFor (o : Options) (n : Nat) : Nat := max o.initialCapacity.toNat (2 * n)

/-- Programs of these sizes can be loaded one behind the other within the limit, where `spent` bytes
    are in use and each program is left with as much capacity as it can have. -/
def Fits (o : Options) : Nat → List Nat → Prop
  | _, [] => True
  | spent, n :: ns => ((spent + n : Nat) : Int) ≤ o.memoryLimit ∧ o.Fits (spent + o.roomFor n) ns

end Options

namespace Store

/-- The capacity of the buffers of programs with these lines is at most so much. -/
def spent (o : Options) (lss : List (List Line)) : Nat :=
  (lss.map fun ls => o.roomFor (codeOf ls).length).sum

/-- The store in the middle of a bulk load, all of its memory counted and none of its buffers larger
    than loading makes them. -/
structure Loading (o : Options) (lss : List (List Line)) (s : Store) : Prop
    extends Filling lss s where
  options : s.options = o
  counted : s.used = inWord s.total
  roomy : ∀ p ∈ s.programs, p.buffer.capacity ≤ o.roomFor p.buffer.text.length

/-- Why loading fails: `most` bytes are too many for any buffer, or there is no memory for `n` bytes
    behind those that are spent. -/
structure Starved (o : Options) (most spent n : Nat) (e : Error) (s : Store) : Prop where
  crash : e = .outOfBounds → o.Exceeded most
  short : e ≠ .outOfBounds → 0 < o.memoryLimit ∧ o.memoryLimit < (spent + n : Nat)
  filling : ∃ lss, s.Filling lss

theorem Starved.mono {o : Options} {spent : Nat} (h : Starved o m spent m e s)
    (hle : m ≤ n) : Starved o n spent n e s := by
  refine ⟨fun hcrash => (h.crash hcrash).mono hle, fun hcrash => ?_, h.filling⟩
  obtain ⟨hpos, hlimit⟩ := h.short hcrash
  exact ⟨hpos, by omega⟩

theorem inWord_le {n : Int} (h : 0 ≤ n) : inWord n ≤ n := by
  rw [inWord, Int.bmod_def]
  split <;> omega

namespace Loading

variable {o : Options} {done : List (List Line)} {front : List Line} {pc : Int}

theorem sum_le_spent (hps : ∀ p ∈ ps, p.buffer.capacity ≤ o.roomFor p.buffer.text.length)
    (h : List.Forall₂ LoadedAs ps lss) : (ps.map (·.buffer.capacity)).sum ≤ spent o lss := by
  induction h with
  | nil => exact Nat.le_refl 0
  | @cons p ls ps lss hp _ ih =>
    have hfirst := hps p mem_cons_self
    have hrest := ih fun q hq => hps q (mem_cons_of_mem _ hq)
    rw [hp.holds.text] at hfirst
    simp only [spent, map_cons, sum_cons, codeOf] at hrest ⊢
    omega

/-- Memory is denied for a buffer that replaces one of `held` bytes, beside others that hold at most
    what is spent. -/
theorem starved {held need rest spent : Nat} {used : Int} (h : s.Loading o lss)
    (hdenied : s.Denied held need e) (htotal : s.total = rest + held) (hrest : rest ≤ spent)
    (hneed : need ≤ n) : Starved o n spent n e { s with used := used } := by
  refine ⟨?_, ?_, lss, h.toFilling.of_agree (agree_used s used)⟩
  · intro hcrash
    rw [← h.options]
    exact (hdenied.exceeded (hcrash ▸ rfl)).2.mono hneed
  · intro hcrash
    rcases hdenied.fault with ⟨rfl, hpos⟩ | ⟨rfl, -⟩
    · have hshort := hdenied.short rfl
      rw [h.counted, inWord_add_inWord, h.options] at hshort
      have hword := inWord_le (n := s.total + (need - held : Int)) (by omega)
      rw [h.options] at hpos
      exact ⟨hpos, by omega⟩
    · exact absurd rfl hcrash

theorem insertAfter_line (h : s.Loading o (done ++ [front])) (hpc : IsLast front pc)
    (hl : l.Fresh) :
    Outcome (fun place s' => place = (.user done.length, ((textOf front).length : Int)) ∧
        s'.Loading o (done ++ [front ++ [l]]))
      (Starved o ((codeOf front).length + l.size) (spent o done) ((codeOf front).length + l.size))
      (insertAfter (.user done.length) pc l.instr s) := by
  obtain ⟨hplace, hwrites⟩ := hl.writes
  obtain ⟨ps, p, hps, hlength, hdone, hp, hinserted⟩ := h.inserted hpc hplace.spelling
  have htext : p.buffer.text.length = (codeOf front).length := by rw [hp.holds.text, codeOf]
  have hroomy := h.roomy
  have htotal : s.total = (ps.map (·.buffer.capacity)).sum + p.buffer.capacity := by
    simp [total, hps, h.equations]
  rw [hps] at hroomy
  have hspent := sum_le_spent (fun q hq => hroomy q (mem_append_left _ hq)) hdone
  have hresolved : s.resolved? l.instr = some l.instr := by
    rw [resolved?, if_neg hplace.resolved]
  generalize insertAfter (.user done.length) pc l.instr s = r at hinserted
  cases hinserted with
  | @line line' m p' s' hres _ hm hs' hp' hgranted hbalanced =>
    obtain rfl := Option.some.inj (hresolved.symm.trans hres)
    obtain rfl : m = l := Line.ext (Except.ok.inj (hm.code.symm.trans hwrites.code))
    rw [← hlength] at hs'
    refine .ok ⟨placed_self .., h.toFilling.line hps hdone hp hl.target hs' hp', ?_, ?_, ?_⟩
    · rw [hs'.options, options_setProgram, h.options]
    · rw [hbalanced (by rw [h.counted, inWord, inWord, Int.bmod_bmod]), h.counted,
        inWord_add_inWord, add_sub_cancel]
    · rw [hs'.programs, setProgram_of_split p' hps]
      intro q hq
      rcases mem_append.1 hq with hq | hq
      · exact hroomy q (mem_append_left _ hq)
      · obtain rfl := mem_singleton.1 hq
        have hold := hroomy p (by simp)
        have hlen : q.buffer.text.length = p.buffer.text.length + m.size := by
          have hq := hp'.holds.length
          simp only [h.loading, Nat.one_ne_zero, false_and, if_false, textOf_append, textOf_cons,
            textOf_nil, append_nil, length_append] at hq
          rw [hq, hp.holds.length, Line.size]
          omega
        unfold Options.roomFor at hold ⊢
        rcases hgranted.fresh with hsame | ⟨hmore, hsize, -, -⟩
        · omega
        · rw [h.options] at hsize
          omega
  | split hend => exact absurd hend hplace.notEnd
  | refused _ _ hcause =>
    obtain ⟨bytes, hbytes⟩ := hplace.storable
    rcases hcause with hclosed | hnone | ⟨-, hcause⟩ | ⟨hcause, -⟩
    · exact absurd (fun hg => by simp [hp.generated] at hg) hclosed
    · cases hresolved.symm.trans hnone
    · exact absurd hbytes (hcause bytes _ hresolved)
    · exact absurd hcause hplace.notEnd
  | @denied e used held need hasks hdenied =>
    rw [Asks, if_neg hplace.notEnd, storedSize_of_some hresolved, hwrites.size_eq.symm,
      htext] at hasks
    obtain ⟨rfl, rfl⟩ := hasks
    exact .error (h.starved hdenied htotal hspent (Nat.le_refl _))
  | unaddressable hfar =>
    refine .error ⟨fun _ => .inr ?_, absurd rfl, _, h.toFilling⟩
    rw [length_codeOf]
    rw [maxOffset] at hfar
    rw [maxCapacity]
    omega

theorem insertAfter_end (h : s.Loading o (done ++ [front])) (hpc : IsLast front pc) :
    Outcome (fun place s' => place = (.user (done.length + 1 : Nat), -1) ∧
        s'.Loading o (done ++ [front] ++ [[]]))
      (Starved o (codeOf front).length (spent o (done ++ [front])) 2)
      (insertAfter (.user done.length) pc (.plain .endLine) s) := by
  obtain ⟨ps, p, hps, hlength, hdone, hp, hinserted⟩ :=
    h.inserted (i := .plain .endLine) hpc fun hnumber => by cases hnumber
  have hroomy := h.roomy
  have hspent := sum_le_spent hroomy h.programs
  have htotal : s.total = (s.programs.map (·.buffer.capacity)).sum := by simp [total, h.equations]
  have htwo := length_codeOf front
  rw [hps] at hroomy
  generalize insertAfter (.user done.length) pc (.plain .endLine) s = r at hinserted
  cases hinserted with
  | line hres hend =>
    obtain rfl := Option.some.inj hres
    exact absurd rfl hend
  | @split pre post q r s' _ hsplit hpre hs' hq hr hcapacity hgranted hbalanced =>
    obtain ⟨rfl, rfl⟩ := Filling.eq_of_split hps hsplit (hlength ▸ hpre)
    refine .ok ⟨by rw [hlength, placed_end rfl (by simp)], h.toFilling.split hdone hp hs' hq hr,
      hs'.options.trans h.options, ?_, ?_⟩
    · rw [hbalanced (by rw [h.counted, inWord, inWord, Int.bmod_bmod]), h.counted,
        inWord_add_inWord, add_sub_cancel]
    · rw [hs'.programs]
      intro t ht
      simp only [mem_append, mem_cons, not_mem_nil, or_false] at ht hroomy
      rcases ht with ht | rfl | rfl
      · exact hroomy t (.inl ht)
      · have hlen := hq.holds.length
        rw [length_textOf_clearAll] at hlen
        rw [hcapacity, hlen, ← hp.holds.length]
        exact hroomy p (.inr rfl)
      · have hlen : t.buffer.text.length = 2 := hr.holds.length
        have hend : (textOf ([] ++ [endLine])).length = 2 := rfl
        rw [hlen, Options.roomFor]
        rcases hgranted.fresh with hnone | ⟨-, hsize, -, -⟩
        · omega
        · rw [h.options] at hsize
          omega
  | refused _ _ hcause =>
    rcases hcause with hclosed | hnone | ⟨hcause, -⟩ | ⟨-, hcause⟩
    · exact absurd (fun hg => by simp [hp.generated] at hg) hclosed
    · cases hnone
    · exact absurd rfl hcause
    · exact absurd rfl (hcause _)
  | @denied e used held need hasks hdenied =>
    obtain ⟨rfl, rfl⟩ := hasks
    have hstarved := @starved _ _ _ _ _ _ _ _ _ used h hdenied htotal hspent (Nat.le_refl 2)
    exact .error ⟨fun hcrash => (hstarved.crash hcrash).imp_right fun hbig => by omega,
      hstarved.short, hstarved.filling⟩
  | unaddressable hfar =>
    refine .error ⟨fun _ => .inr ?_, absurd rfl, _, h.toFilling⟩
    rw [maxOffset] at hfar
    rw [maxCapacity]
    omega

theorem decodeAt_textOf {before : List Line} (rest : List Line)
    (hoff : ((textOf before).length : Int) ≤ maxOffset) :
    (decodeAt (textOf (before ++ l :: rest)) (textOf before).length).mapError Error.ofInstrFault
      = .ok (l.instr, l.size) := by
  rw [decodeAt_line (by rw [textOf_append, textOf_cons]) hoff]
  rfl

theorem loadLines_step {size : Nat} {line : Instr} (bound : Nat) (p : LoadPoint)
    (hmore : offset < code.length)
    (hdecode : (decodeAt code offset).mapError Error.ofInstrFault = .ok (line, size)) :
    loadLines code (bound + 1) offset p s =
      (if line.command = .endLine ∧ offset + size = code.length then pure p
        else do
          let p ← insertAfter p.1 p.2 (line.withTarget targetUnknown)
          loadLines code bound (offset + size) p : Edit LoadPoint) s := by
  rw [loadLines, if_neg (Nat.not_le.2 hmore), hdecode, bind_ok (Edit.ofExcept_ok _)]
  simp only [Bool.and_eq_true, decide_eq_true_eq]
  rfl

theorem loadLines_unaddressable (bound : Nat) (p : LoadPoint)
    (hmore : offset < code.length) (hfar : maxOffset < (offset : Int)) :
    loadLines code (bound + 1) offset p s = .error .outOfBounds s := by
  rw [loadLines, if_neg (Nat.not_le.2 hmore), decodeAt, if_pos hfar]
  rfl

theorem loadLines_textOf {before todo : List Line} {bound : Nat}
    (h : s.Loading o (done ++ [before])) (hpc : IsLast before pc)
    (hfresh : ∀ l ∈ todo, l.Fresh) (hbound : todo.length < bound) :
    Outcome (fun place s' => place.1 = .user done.length ∧ IsLast (before ++ todo) place.2 ∧
        s'.Loading o (done ++ [before ++ todo]))
      (Starved o (codeOf (before ++ todo)).length (spent o done) (codeOf (before ++ todo)).length)
      (loadLines (textOf (before ++ (todo ++ [Line.endLine]))) bound (textOf before).length
        (.user done.length, pc) s) := by
  -- Induction on the lines that are left; those before them have been read and put in.
  induction todo generalizing s before pc bound with
  | nil =>
    obtain ⟨bound, rfl⟩ : ∃ n, bound = n + 1 := ⟨bound - 1, by simp at hbound; omega⟩
    have hmore : (textOf before).length < (textOf (before ++ ([] ++ [Line.endLine]))).length := by
      simp [endBytes]
    by_cases hoff : ((textOf before).length : Int) ≤ maxOffset
    · rw [loadLines_step bound _ hmore (decodeAt_textOf [] hoff), if_pos ⟨rfl, by simp [endBytes]⟩]
      exact .ok ⟨rfl, by simpa using hpc, by simpa using h⟩
    · rw [loadLines_unaddressable bound _ hmore (by omega)]
      refine .error ⟨fun _ => .inr ?_, absurd rfl, _, h.toFilling⟩
      rw [append_nil, length_codeOf]
      rw [maxOffset] at hoff
      rw [maxCapacity]
      omega
  | cons l todo ih =>
    obtain ⟨bound, rfl⟩ : ∃ n, bound = n + 1 := ⟨bound - 1, by simp at hbound; omega⟩
    obtain ⟨hl, hrest⟩ := forall_mem_cons.1 hfresh
    have hlength : (textOf (before ++ [l])).length = (textOf before).length + l.size := by
      simp [Line.size]
    have hsize : (codeOf (before ++ l :: todo)).length
        = (textOf before).length + l.size + (textOf todo).length + 2 := by
      rw [length_codeOf, textOf_append, textOf_cons, length_append, length_append, Line.size]
      omega
    have hmore : (textOf before).length
        < (textOf (before ++ (l :: todo ++ [Line.endLine]))).length := by
      have htwo := l.two_le_size
      rw [Line.size] at htwo
      rw [cons_append, textOf_append, textOf_cons, length_append, length_append]
      omega
    by_cases hoff : ((textOf before).length : Int) ≤ maxOffset
    · -- The line was written without a target, so forgetting it changes nothing.
      have hunknown : l.instr.withTarget targetUnknown = l.instr := by
        rw [← hl.target]
        rfl
      rw [loadLines_step bound _ hmore (decodeAt_textOf _ hoff),
        if_neg fun hend => hl.writes.1.notEnd hend.1, hunknown]
      have hline := (h.insertAfter_line hpc hl).imp (fun _ _ h => h) fun e _ he => he.mono
        (n := (codeOf (before ++ l :: todo)).length) (by rw [length_codeOf, hsize]; omega)
      refine hline.bind fun place s' hs' => ?_
      obtain ⟨rfl, hs'⟩ := hs'
      have hmoreLines := ih hs' (.inr ⟨before, l, rfl, rfl⟩) hrest (by simpa using hbound)
      rw [hlength] at hmoreLines
      simpa using hmoreLines
    · rw [loadLines_unaddressable bound _ hmore (by omega)]
      refine .error ⟨fun _ => .inr ?_, absurd rfl, _, h.toFilling⟩
      rw [maxOffset] at hoff
      rw [maxCapacity]
      omega

theorem loadLines_codeOf (h : s.Loading o (done ++ [[]])) (hfresh : ∀ l ∈ ls, l.Fresh) :
    Outcome (fun place s' => place.1 = .user done.length ∧ IsLast ls place.2 ∧
        s'.Loading o (done ++ [ls]))
      (Starved o (codeOf ls).length (spent o done) (codeOf ls).length)
      (loadLines (codeOf ls) (codeOf ls).length 0 (.user done.length, -1) s) := by
  have hlength := length_codeOf ls
  have hbound := length_le_length_textOf ls
  exact h.loadLines_textOf (.inl ⟨rfl, rfl⟩) hfresh (by omega)

end Loading

/-- Why loading programs of these sizes fails. -/
structure Shortage (o : Options) (spent : Nat) (ns : List Nat) (e : Error) (s : Store) : Prop where
  crash : e = .outOfBounds → ∃ n ∈ ns, o.Exceeded n
  short : e ≠ .outOfBounds → 0 < o.memoryLimit ∧ ¬ o.Fits spent ns
  filling : ∃ lss, s.Filling lss

end Store

/-- The number of the program is noted with a failure that is no crash. -/
theorem inProgram_outcome {E : Error → Store → Prop}
    (k : Nat) (h : Outcome Q E (x s)) : Outcome Q
      (fun e s' => ∃ cause, E cause s' ∧ e = if cause.isCrash then cause else .inProgram k cause)
      (inProgram k x s) := by
  unfold inProgram
  generalize x s = r at h
  cases h with
  | ok h => exact .ok h
  | error h => exact .error ⟨_, h, rfl⟩

namespace Store

/-- Memory that is missing for a program is missing for all of them. -/
theorem inProgram_starved {o : Options}
    {most : Nat} (start : Nat) (ns : List Nat) (k : Nat) (h : Outcome Q (Starved o most m n) (x s))
    (hmost : most ∈ ns) (hfits : o.Fits start ns → ((m + n : Nat) : Int) ≤ o.memoryLimit) :
    Outcome Q (Shortage o start ns) (inProgram k x s) := by
  refine (inProgram_outcome k h).imp (fun _ _ h => h) ?_
  rintro e s' ⟨cause, hcause, rfl⟩
  refine ⟨fun hcrash => ⟨most, hmost, hcause.crash ?_⟩, fun hcrash => ?_, hcause.filling⟩
  · split at hcrash
    · exact hcrash
    · cases hcrash
  · obtain ⟨hpos, hlimit⟩ := hcause.short (by rintro rfl; exact hcrash rfl)
    exact ⟨hpos, fun h => absurd (hfits h) (Int.not_le.2 hlimit)⟩

theorem Loading.loadPrograms_codeOf {o : Options} {done : List (List Line)} (hne : lss ≠ [])
    (h : s.Loading o (done ++ [[]])) (hfresh : ∀ ls ∈ lss, ∀ l ∈ ls, l.Fresh) (k : Nat) :
    Outcome (fun _ s' => s'.Loading o (done ++ lss))
      (Shortage o (spent o done) (lss.map fun ls => (codeOf ls).length))
      (loadPrograms k (lss.map codeOf) (.user done.length, -1) s) := by
  induction lss generalizing s done k with
  | nil => exact absurd rfl hne
  | cons ls rest ih =>
    obtain ⟨hls, hrestFresh⟩ := forall_mem_cons.1 hfresh
    have hlines := inProgram_starved (spent o done) ((ls :: rest).map fun ls => (codeOf ls).length)
      k (h.loadLines_codeOf hls) mem_cons_self And.left
    cases rest with
    | nil => exact hlines.bind fun place s' hs' => .ok hs'.2.2
    | cons ms rest =>
      refine hlines.bind fun place s' hs' => ?_
      obtain ⟨hplace, hlast, hs'⟩ := hs'
      rw [hplace]
      have hnext : spent o (done ++ [ls]) = spent o done + o.roomFor (codeOf ls).length := by
        simp [spent]
      have hend := inProgram_starved (spent o done)
        ((ls :: ms :: rest).map fun ls => (codeOf ls).length) k (hs'.insertAfter_end hlast)
        mem_cons_self fun hfits => by
          have hroom : ((spent o done + o.roomFor (codeOf ls).length + (codeOf ms).length : Nat)
            : Int) ≤ o.memoryLimit := hfits.2.1
          have htwo := length_codeOf ms
          omega
      refine hend.bind fun place' s'' hs'' => ?_
      obtain ⟨rfl, hs''⟩ := hs''
      -- The END between the two programs has cut off an empty one, where loading goes on.
      have hmore := ih (by simp) hs'' hrestFresh (k + 1)
      rw [length_append, length_singleton, append_assoc, singleton_append, hnext] at hmore
      refine hmore.imp (fun _ _ h => h) fun e t he =>
        ⟨fun hcrash => ?_, fun hcrash => ?_, he.filling⟩
      · obtain ⟨n, hn, hbig⟩ := he.crash hcrash
        exact ⟨n, mem_cons_of_mem _ hn, hbig⟩
      · exact ⟨(he.short hcrash).1, fun hfits => (he.short hcrash).2 hfits.2⟩

/-! ## The end of a bulk load -/

theorem loadedAs_of_forgot {qs : List Program} (h : List.Forall₂ LoadedAs ps lss)
    (hforgot : List.Forall₂ Forgot ps qs) : List.Forall₂ LoadedAs qs lss := by
  induction h generalizing qs with
  | nil =>
    obtain rfl := forall₂_nil_left_iff.1 hforgot
    exact .nil
  | cons hp _ ih =>
    obtain ⟨q, rest, ⟨ms, hms, hq, -⟩, hrest, rfl⟩ := forall₂_cons_left_iff.1 hforgot
    obtain rfl := hms.unique hp.holds
    rw [hp.generated] at hq
    exact .cons (.cleared hq hp.unknown) (ih hrest)

theorem Filling.endBulkLoad_eq_ok (h : s.Filling lss) :
    ∃ s', endBulkLoad s = .ok () s' ∧ s'.options = s.options ∧ s'.loading = 0 ∧
      s'.equations = [] ∧ List.Forall₂ LoadedAs s'.programs lss ∧ s'.labels = tableOf 0 lss := by
  obtain ⟨ps, es, s', hrun, hs', hps, hes, -, -, hlisted⟩ := endBulkLoad_last h.loading
    (LoadedAs.readable h.programs) (by simp [h.equations])
  rw [h.equations] at hes
  have hkept : List.Forall₂ LoadedAs s'.programs lss := by
    rw [hs'.programs]
    exact loadedAs_of_forgot h.programs hps
  exact ⟨s', hrun, hs'.options, hs'.loading, hs'.equations.trans (forall₂_nil_left_iff.1 hes),
    hkept, hlisted.labels_eq (LoadedAs.forall_holds hkept)⟩

end Store

/-- A store with one empty program holds the programs that are loaded into it, unless there is not
    enough memory for them. -/
theorem bulkLoad_codeOf {o : Options} (hs : s.Books o)
    (hroom : ∀ p ∈ s.programs, p.buffer.capacity ≤ o.roomFor p.buffer.text.length)
    (hload : s.loading = 0) (hequations : s.equations = []) (hprograms : s.programs = [p])
    (hp : Store.Empty false p) (hne : lss ≠ []) (hfresh : ∀ ls ∈ lss, ∀ l ∈ ls, l.Fresh) :
    Outcome (fun _ s' => s'.options = o ∧ s'.equations = [] ∧
        List.Forall₂ Program.Holds s'.programs lss ∧ s'.labels = tableOf 0 lss)
      (fun e _ => (e = .outOfBounds → ∃ ls ∈ lss, o.Exceeded (codeOf ls).length) ∧
        (e ≠ .outOfBounds → 0 < o.memoryLimit ∧ ¬ o.Fits 0 (lss.map fun ls => (codeOf ls).length)))
      (bulkLoad (lss.map codeOf) s) := by
  have hbegin : { s with loading := s.loading + 1 }.Loading o ([] ++ [[]]) :=
    { options := hs.options
      counted := hs.used
      roomy := hroom
      loading := by simp [hload]
      equations := hequations
      programs := by
        rw [hprograms]
        exact .cons (.empty hp) .nil }
  have hloaded := hbegin.loadPrograms_codeOf hne hfresh 0
  have hopen : Store.beginBulkLoad s = .ok () { s with loading := s.loading + 1 } := rfl
  simp only [bulkLoad, bind, EStateM.bind, hopen]
  generalize loadPrograms 0 (lss.map codeOf) (.user 0, -1) { s with loading := s.loading + 1 } = r
    at hloaded
  cases hloaded with
  | ok h =>
    obtain ⟨s', hrun, hoptions, -, hnone, hloaded, hlabels⟩ := h.endBulkLoad_eq_ok
    simp only [hrun]
    exact .ok ⟨hoptions.trans h.options, hnone, Store.LoadedAs.forall_holds hloaded, hlabels⟩
  | error h =>
    obtain ⟨mss, hfilling⟩ := h.filling
    obtain ⟨s', hrun, -⟩ := hfilling.endBulkLoad_eq_ok
    simp only [hrun]
    refine .error ⟨fun hcrash => ?_, h.short⟩
    obtain ⟨n, hn, hbig⟩ := h.crash hcrash
    obtain ⟨ls, hls, rfl⟩ := mem_map.1 hn
    exact ⟨ls, hls, hbig⟩

theorem bulkLoad_eq_ok (hs : s.Books s.options) (hunlimited : s.Unlimited)
    (hroom : ∀ p ∈ s.programs, p.buffer.capacity ≤ s.options.roomFor p.buffer.text.length)
    (hload : s.loading = 0) (hequations : s.equations = []) (hprograms : s.programs = [p])
    (hp : Store.Empty false p) (hne : lss ≠ []) (hfresh : ∀ ls ∈ lss, ∀ l ∈ ls, l.Fresh)
    (hsmall : ∀ ls ∈ lss, 2 * (codeOf ls).length ≤ Store.maxCapacity) :
    ∃ s', bulkLoad (lss.map codeOf) s = .ok () s' ∧ s'.Unlimited ∧ s'.equations = [] ∧
      List.Forall₂ Program.Holds s'.programs lss ∧ s'.labels = tableOf 0 lss := by
  have hloaded := bulkLoad_codeOf hs hroom hload hequations hprograms hp hne hfresh
  generalize bulkLoad (lss.map codeOf) s = r at hloaded
  cases hloaded with
  | ok h => exact ⟨_, rfl, hunlimited.of_options h.1, h.2⟩
  | @error e _ h =>
    have hlimit := hunlimited.limit
    have hinitial := hunlimited.initial
    by_cases hcrash : e = .outOfBounds
    · obtain ⟨ls, hls, hbig | hbig⟩ := h.1 hcrash
      · omega
      · have := hsmall ls hls
        omega
    · have := (h.2 hcrash).1
      omega

end Keystroke
