import Keystroke.Proofs.Snapshot.Loading
import Keystroke.Proofs.Store.Memory

set_option autoImplicit false

/-! # Loading any bytes

Loading does not trust the bytes of a saved program. What is read from them is put in line by line
like an edit, so the store holds programs of whole lines at every moment (`Store.Filling`), whether
the bytes run out in the middle of a line, have ENDs in the middle, or name labels that are not
there. -/

namespace Keystroke

variable {bytes : Bytes} {i : Instr} {offset m : Nat} {large : Prop}

/-! ## The size of what is read -/

namespace Instr

variable {i : Instr} {n : Nat}

theorem length_operandBytes {a : Operand} (h : operandBytes a = .ok bytes) :
    bytes.length ≤ 128 ∨ a.kind = .longText ∧ bytes.length ≤ a.text.length + 2 := by
  unfold operandBytes at h
  cases hk : a.kind <;> simp only [hk] at h
  case num | negNum | indNum | equation =>
    have hgroups := @Varint.length_encode_le 5 a.num.toUInt32 (by decide)
      (a.num.toUInt32.toNat_lt.trans (by decide))
    split at h
    · cases h
    · obtain rfl := Except.ok.inj h
      omega
  case text | indText =>
    split at h
    · cases h
    · next hshort =>
      obtain rfl := Except.ok.inj h
      rw [maxTextLength] at hshort
      rw [List.length_cons]
      omega
  case longText =>
    obtain rfl := Except.ok.inj h
    refine .inr ⟨rfl, ?_⟩
    simp only [List.length_append, length_littleEndian, List.length_take]
    omega
  case labelIndex | other => cases h
  all_goals
    obtain rfl := Except.ok.inj h
    simp

/-- Only a line that is no number has a long text, and it keeps it. -/
theorem normalize_of_longText (h : i.normalize.operand.kind = .longText) :
    i.command ≠ .number ∧ i.normalize.operand = i.operand := by
  unfold normalize at h ⊢
  split
  · next hneg =>
    rw [if_pos hneg] at h
    cases h
  · next hneg =>
    split
    · next hnumber => exact ⟨hnumber, rfl⟩
    · next hnumber =>
      -- the operand of a number is an integer or a real
      simp only [numberOperand] at h
      repeat' split at h
      all_goals simp_all

theorem length_keptSpelling (value : UInt64) (text : Bytes) :
    (keptSpelling value text).length ≤ text.length := by
  unfold keptSpelling
  split
  · exact Nat.zero_le _
  · exact Nat.le_refl _

theorem length_normalize_numberText (i : Instr) :
    i.normalize.numberText.length ≤ i.numberText.length := by
  unfold normalize
  split
  · exact Nat.le_refl _
  · split
    · exact Nat.zero_le _
    · exact length_keptSpelling _ _

theorem length_storedSpelling (i : Instr) : i.storedSpelling.length ≤ i.numberText.length + 1 := by
  have hlength := i.length_normalize_numberText
  unfold storedSpelling
  split
  · rw [spellingBytes, List.length_append, List.length_map, List.length_singleton]
    omega
  · exact Nat.zero_le _

theorem storedSpelling_of_ne_number (h : i.command ≠ .number) : i.storedSpelling = [] := by
  simp [storedSpelling, storedHeader, h]

/-- What the line has of texts was read from so many bytes, up to a zero byte. -/
structure ReadFrom (n : Nat) (i : Instr) : Prop where
  spelled : 0 ∉ i.numberText
  spelling : i.numberText.length ≤ n
  text : i.operand.kind = .longText → i.operand.text.length ≤ n

theorem ReadFrom.size_le (h : i.ReadFrom n) : i.size ≤ 135 + n := by
  unfold size
  split
  · next bytes hcode =>
    obtain ⟨-, operand, hoperand, rfl⟩ := encode_eq_ok_iff.1 hcode
    have hcache : i.storedCache.length ≤ 4 := by
      unfold storedCache
      split <;> simp
    have hspelling := i.length_storedSpelling
    have hread := h.spelling
    simp only [List.length_append, Header.length_pack]
    rcases length_operandBytes hoperand with hshort | ⟨hkind, hlong⟩
    · omega
    · obtain ⟨hnumber, hsame⟩ := normalize_of_longText hkind
      rw [hsame] at hkind hlong
      have htext := h.text hkind
      rw [storedSpelling_of_ne_number hnumber, List.length_nil]
      omega
  · rw [Header.size]
    omega

theorem ReadFrom.withTarget (h : i.ReadFrom n) (t : Int32) : (i.withTarget t).ReadFrom n :=
  ⟨h.spelled, h.spelling, h.text⟩

theorem readFrom_endLine (n : Nat) : (plain .endLine).ReadFrom n :=
  ⟨List.not_mem_nil, Nat.zero_le n, by simp [plain]⟩

end Instr

theorem Store.storedSize_le {n : Nat} (h : i.ReadFrom n) (s : Store) :
    s.storedSize i ≤ 135 + n := by
  cases hline : s.resolved? i with
  | none =>
    rw [storedSize, hline]
    exact Nat.zero_le _
  | some i' =>
    rw [storedSize_of_some hline]
    -- the name of a label is no long text
    have hread : i'.ReadFrom n := by
      unfold resolved? at hline
      split at hline
      · obtain ⟨name, -, rfl⟩ := Option.map_eq_some_iff.1 hline
        exact ⟨h.spelled, h.spelling, by simp⟩
      · obtain rfl := Option.some.inj hline
        exact h
    exact hread.size_le

/-! ## Reading -/

theorem zero_notMem_readSpelling (rest : Bytes) : 0 ∉ readSpelling rest := by
  intro hzero
  obtain ⟨b, hb, hmark⟩ := List.mem_map.1 hzero
  have hne := List.mem_takeWhile_imp hb
  split at hmark
  · cases hmark
  · simp [hmark] at hne

theorem length_readSpelling (rest : Bytes) :
    (readSpelling rest).length + 1 = spellingSize rest := by
  rw [readSpelling, spellingSize, List.length_map]

theorem length_readOperand_text {kind : ArgKind} {start used : Nat} {rest : Bytes}
    (hkind : (readOperand kind rest).kind = .longText)
    (h : operandSize kind start rest = .ok used) : (readOperand kind rest).text.length ≤ used := by
  obtain rfl : kind = .longText := by
    rw [Line.readOperand_kind] at hkind
    split at hkind
    · cases hkind
    · exact hkind
  cases rest with
  | nil => cases h
  | cons low rest =>
    cases rest with
    | nil => cases h
    | cons high rest =>
      -- the text is cut to the length in front of it
      obtain rfl := Except.ok.inj h
      simp only [readOperand, List.length_take, List.take_succ_cons, List.take_zero]
      omega

/-- A line that is read is two bytes or more, and what it has of texts is among them. -/
theorem readFrom_of_decodeLine {size : Nat} (h : decodeLine bytes = .ok (i, size)) :
    2 ≤ size ∧ size ≤ bytes.length ∧ i.ReadFrom size := by
  obtain ⟨hsize, hd, hheader, rfl⟩ := decodeLine_eq_ok_iff.1 h
  obtain ⟨hd', used, hheader', -, hused, hn, hle⟩ := lineSize_eq_ok_iff.1 hsize
  obtain rfl : hd = hd' := Option.some.inj (hheader.symm.trans hheader')
  have hstart := hd.operandStart_le
  have hsum := hd.le_sizeWith used bytes
  have hoperand : hd.operandUsed bytes = used := by
    simp [Header.operandUsed, hused, Except.toOption]
  refine ⟨by omega, hle, ?_⟩
  unfold Header.instrOf
  split
  · -- a number
    refine ⟨?_, ?_, ?_⟩
    · simp only
      split
      · exact zero_notMem_readSpelling _
      · exact List.not_mem_nil
    · simp only
      split
      · next hspelled =>
        rw [Header.sizeWith, if_pos hspelled] at hn
        have hlength := length_readSpelling (bytes.drop (hd.operandStart + used))
        rw [hoperand]
        omega
      · exact Nat.zero_le _
    · simp only
      split
      · next hreal => simp [hreal]
      · simp
  · refine ⟨List.not_mem_nil, Nat.zero_le _, ?_⟩
    intro hkind
    have htext (hlong : (readOperand hd.kind (bytes.drop hd.operandStart)).kind = .longText) :
        (readOperand hd.kind (bytes.drop hd.operandStart)).text.length ≤ size := by
      have := length_readOperand_text hlong hused
      omega
    unfold Header.operandOf at hkind ⊢
    cases hcached : hd.cached <;> rw [hcached] at hkind <;> exact htext hkind

theorem decodeAt_drop {text : Bytes} (h : (offset : Int) ≤ maxOffset) :
    decodeAt text offset = (decodeLine (text.drop offset)).mapError (·.at_ offset) := by
  rw [decodeAt, if_neg (by omega), bytesFrom?, if_neg (by omega), Int.toNat_natCast]

open Operation List

/-! ## Putting lines in -/

/-- The least capacity, or the number of bytes that are read, is far beyond anything in use. -/
def Options.Oversized (o : Options) (n : Nat) : Prop :=
  (Store.maxCapacity : Int) < o.initialCapacity ∨ 2 ^ 40 ≤ n

namespace Store

variable {o : Options} {s : Store} {n : Nat} {place : LoadPoint}

/-- The place behind the last line of a store that is being filled. The lines of the last program
    were read from `n` bytes. -/
structure AtEnd (o : Options) (n : Nat) (place : LoadPoint) (s : Store) : Prop where
  options : s.options = o
  last : ∃ done front, s.Filling (done ++ [front]) ∧ place.1 = .user done.length ∧
    IsLast front place.2 ∧ (textOf front).length ≤ 100 * n

/-- Loading has failed; it has crashed only for want of more memory than there can be. -/
structure Halted (large : Prop) (e : Error) (s : Store) : Prop where
  crash : e.isCrash = true → large
  filling : ∃ lss, s.Filling lss

theorem AtEnd.mono (h : AtEnd o m place s) (hle : m ≤ n) : AtEnd o n place s := by
  obtain ⟨hoptions, done, front, hfilling, href, hpc, hlength⟩ := h
  exact ⟨hoptions, done, front, hfilling, href, hpc, by omega⟩

theorem AtEnd.filling (h : AtEnd o n place s) : ∃ lss, s.Filling lss := by
  obtain ⟨-, done, front, hfilling, -⟩ := h
  exact ⟨_, hfilling⟩

/-- A line that was read is put behind the last one. An END starts the next program. -/
theorem insertAfter_intake {line : Instr} {bound : Nat} (h : AtEnd o n place s)
    (hline : line.ReadFrom m) (htwo : line.command ≠ .endLine → 2 ≤ m) (hn : n ≤ bound)
    (hm : m ≤ bound) :
    Outcome (AtEnd o (if line.command = .endLine then 0 else n + m)) (Halted (o.Oversized bound))
      (insertAfter place.1 place.2 line s) := by
  obtain ⟨hoptions, done, front, hfilling, href, hpc, hlength⟩ := h
  obtain ⟨ps, p, hps, hcount, hdone, hp, hinserted⟩ := hfilling.inserted hpc fun _ => hline.spelled
  have hsize := s.storedSize_le hline
  have hlen := hp.holds.length
  rw [href]
  generalize insertAfter (.user done.length) place.2 line s = r at hinserted
  cases hinserted with
  | @line line' l p' s' hres hend hl hs' hp' _ _ =>
    rw [(resolved?_same hres).1] at hend
    have hgrow := htwo hend
    rw [storedSize_of_some hres, ← hl.size_eq] at hsize
    rw [if_neg hend, placed_self]
    rw [← hcount] at hs'
    refine .ok ⟨?_, done, front ++ [l], hfilling.line hps hdone hp hl.target hs' hp', rfl,
      .inr ⟨front, l, rfl, rfl⟩, ?_⟩
    · rw [hs'.options, setProgram_of_split p' hps]
      exact hoptions
    · rw [textOf_append, length_append, textOf_cons, textOf_nil, append_nil, ← Line.size]
      omega
  | @split pre post q r s' hend hsplit hpre hs' hq hr _ _ _ =>
    obtain ⟨rfl, rfl⟩ := Filling.eq_of_split hps hsplit (hcount ▸ hpre)
    rw [hcount, placed_end hend (by simp)]
    refine .ok ⟨hs'.options.trans hoptions, done ++ [front], [], hfilling.split hdone hp hs' hq hr,
      by rw [length_append, length_singleton], .inl ⟨rfl, rfl⟩, Nat.zero_le _⟩
  | refused he => exact .error ⟨by simp [he], _, hfilling⟩
  | @denied e used held need hasks hdenied =>
    refine .error ⟨fun hcrash => ?_, _, hfilling.of_agree (agree_used s used)⟩
    have hneed := (hasks.le (by simpa using hp.holds)).2
    have hbig := (hdenied.exceeded hcrash).2
    rw [Options.Exceeded, hoptions, maxCapacity] at hbig
    rw [Options.Oversized, maxCapacity]
    split at hneed <;> omega
  | unaddressable hfar =>
    refine .error ⟨fun _ => .inr ?_, _, hfilling⟩
    rw [maxOffset] at hfar
    omega

/-- The lines of a program are put in until the bytes end, or until one cannot be read. -/
theorem loadLines_intake (code : Bytes) (bound : Nat) (h : AtEnd o offset place s)
    (hoffset : offset ≤ code.length) :
    Outcome (AtEnd o code.length) (Halted (o.Oversized code.length))
      (loadLines code bound offset place s) := by
  induction bound generalizing offset place s with
  | zero => exact .ok (h.mono hoffset)
  | succ bound ih =>
    rcases Nat.lt_or_ge offset code.length with hmore | hend
    · by_cases hfar : maxOffset < (offset : Int)
      · -- no text reaches that far
        rw [Loading.loadLines_unaddressable bound place hmore hfar]
        refine .error ⟨fun _ => .inr ?_, h.filling⟩
        rw [maxOffset] at hfar
        omega
      · have hnear := Int.not_lt.1 hfar
        cases hread : decodeLine (code.drop offset) with
        | error cause =>
          have hhalt : loadLines code (bound + 1) offset place s
              = .error (.ofInstrFault (cause.at_ offset)) s := by
            rw [loadLines, if_neg (Nat.not_le.2 hmore), decodeAt_drop hnear, hread]
            rfl
          rw [hhalt]
          exact .error ⟨by simp [Instr.isCrash_misread], h.filling⟩
        | ok r =>
          obtain ⟨line, size⟩ := r
          obtain ⟨htwo, hsize, hline⟩ := readFrom_of_decodeLine hread
          rw [length_drop] at hsize
          have hdecode : (decodeAt code offset).mapError Error.ofInstrFault = .ok (line, size) := by
            rw [decodeAt_drop hnear, hread]
            rfl
          rw [Loading.loadLines_step bound place hmore hdecode]
          split
          · exact .ok (h.mono hoffset)
          · refine (insertAfter_intake h (hline.withTarget _) (fun _ => htwo) hoffset
              (by omega)).bind fun place' s' h' => ih (h'.mono ?_) (by omega)
            split <;> omega
    · have hdone : loadLines code (bound + 1) offset place s = .ok place s := by
        rw [loadLines, if_pos hend]
        rfl
      rw [hdone]
      exact .ok (h.mono hoffset)

theorem Halted.mono {larger : Prop} {e : Error} (h : Halted large e s) (hlarge : large → larger) :
    Halted larger e s :=
  ⟨fun hcrash => hlarge (h.crash hcrash), h.filling⟩

theorem inProgram_intake {α : Type} {Q : α → Store → Prop} {x : Edit α} (k : Nat)
    (h : Outcome Q (Halted large) (x s)) : Outcome Q (Halted large) (inProgram k x s) := by
  refine (inProgram_outcome k h).imp (fun _ _ hQ => hQ) ?_
  rintro e s' ⟨cause, hcause, rfl⟩
  refine ⟨fun hcrash => hcause.crash ?_, hcause.filling⟩
  split at hcrash <;> exact hcrash

theorem loadPrograms_intake (codes : List Bytes) (k : Nat) (h : AtEnd o 0 place s) :
    Outcome (fun _ s' => ∃ lss, s'.Filling lss)
      (Halted (∃ code ∈ codes, o.Oversized code.length)) (loadPrograms k codes place s) := by
  induction codes generalizing k place s with
  | nil => exact .ok h.filling
  | cons code rest ih =>
    have hlarge {e : Error} {s' : Store} (he : Halted (o.Oversized code.length) e s') :
        Halted (∃ c ∈ code :: rest, o.Oversized c.length) e s' :=
      he.mono fun hbig => ⟨code, mem_cons_self, hbig⟩
    have hlines := inProgram_intake k
      ((loadLines_intake code code.length h (Nat.zero_le _)).imp (fun _ _ h' => h')
        fun _ _ => hlarge)
    cases rest with
    | nil => exact hlines.bind fun _ _ h' => .ok h'.filling
    | cons next rest =>
      refine hlines.bind fun place' s' h' => ?_
      have hcut := inProgram_intake k ((insertAfter_intake h' (Instr.readFrom_endLine 0)
        (fun hne => absurd rfl hne) (Nat.le_refl _) (Nat.zero_le _)).imp (fun _ _ h'' => h'')
        fun _ _ => hlarge)
      refine hcut.bind fun place'' s'' h'' => (ih (k + 1) h'').imp (fun _ _ hf => hf) ?_
      intro e t he
      exact he.mono fun hbig => by
        obtain ⟨c, hc, hover⟩ := hbig
        exact ⟨c, mem_cons_of_mem _ hc, hover⟩

/-! ## Memory -/

theorem leads_inProgram_steady {α : Type} {x : Edit α} (k : Nat)
    (h : Leads (Steady o m) x (Steady o m)) : Leads (Steady o m) (inProgram k x) (Steady o m) := by
  intro s hs
  have hx := h s hs
  unfold inProgram
  cases hrun : x s <;> rw [hrun] at hx <;> exact hx

theorem leads_loadLines_steady (code : Bytes) (bound offset : Nat) (place : LoadPoint) :
    Leads (Steady o m) (loadLines code bound offset place) (Steady o m) := by
  induction bound generalizing offset place with
  | zero => exact .pure _
  | succ bound ih =>
    rw [loadLines]
    split
    · exact .pure _
    · refine (leads_ofExcept _).bind fun r => ?_
      dsimp only
      split
      · exact .pure _
      · exact ((kept_steady _).insertAfter _ _ fun _ => cuts_steady _).bind fun place' =>
          ih _ place'

theorem leads_loadPrograms_steady (codes : List Bytes) (k : Nat) (place : LoadPoint) :
    Leads (Steady o m) (loadPrograms k codes place) (Steady o m) := by
  induction codes generalizing k place with
  | nil => exact .pure _
  | cons code rest ih =>
    have hlines := leads_inProgram_steady k
      (leads_loadLines_steady (o := o) (m := m) code code.length 0 place)
    cases rest with
    | nil => exact hlines.bind fun _ => .pure _
    | cons next rest =>
      exact hlines.bind fun place' =>
        (leads_inProgram_steady k
          ((kept_steady _).insertAfter _ _ fun _ => cuts_steady _)).bind fun place'' => ih _ place''

/-! ## Whole bulk loads -/

/-- The store after a bulk load: the programs are whole, no target is known, and the label table is
    up to date. -/
structure Stocked (o : Options) (edits : Nat) (s : Store) : Prop extends Within o s where
  loading : s.loading = 0
  equations : s.equations = []
  edits : s.edits = edits
  programs : ∃ lss, List.Forall₂ LoadedAs s.programs lss ∧ s.labels = tableOf 0 lss

theorem sameMeters_endBulkLoad (h : s.loading = 1) :
    SameMeters { s with loading := 0 } (state (endBulkLoad s)) := by
  unfold endBulkLoad
  rw [Operation.get_bind, if_neg (by omega), Operation.set_bind, if_pos h, h]
  -- From here on programs and labels are written, and nothing else.
  have hrebuild : Leads (SameMeters { s with loading := 0 }) rebuildLabels
      (SameMeters { s with loading := 0 }) := fun t ht => ht.trans (sameMeters_rebuildLabels t)
  have hforget (refs : List ProgramRef) : Leads (SameMeters { s with loading := 0 })
      (invalidateAll refs) (SameMeters { s with loading := 0 }) :=
    leads_invalidateAll_of (fun ref q ht => ht.trans (sameMeters_setProgram _ ref q)) refs
  exact hrebuild.bind (fun _ => (hforget _).bind fun _ => hforget _) _ ⟨rfl, rfl, rfl, rfl, rfl⟩

theorem Filling.endBulkLoad_stocked {lss : List (List Line)} (h : s.Filling lss)
    (hs : s.Steady o m) :
    ∃ s', endBulkLoad s = .ok () s' ∧ s'.Stocked o m := by
  obtain ⟨s', hrun, -, hloading, hequations, hprograms, hlabels⟩ := h.endBulkLoad_eq_ok
  have hmeters := sameMeters_endBulkLoad h.loading
  rw [hrun] at hmeters
  refine ⟨s', hrun, hmeters.within ⟨hs.options, hs.word, hs.limit⟩, hloading, hequations, ?_,
    lss, hprograms, hlabels⟩
  exact hmeters.edits.trans (hs.edits (.inl (by rw [h.loading]; decide)))

end Store

theorem bulkLoad_intake {o : Options} {s : Store} {p : Program} (codes : List Bytes)
    (hs : s.Within o) (hload : s.loading = 0) (hequations : s.equations = [])
    (hprograms : s.programs = [p]) (hp : Store.Empty false p) :
    Outcome (fun _ s' => s'.Stocked o s.edits)
      (fun e s' => (e.isCrash = true → ∃ code ∈ codes, o.Oversized code.length) ∧
        s'.Stocked o s.edits) (bulkLoad codes s) := by
  obtain ⟨t, ht⟩ : ∃ t : Store, t = { s with loading := s.loading + 1 } := ⟨_, rfl⟩
  have hbegin : t.AtEnd o 0 (.user 0, -1) := by
    refine ⟨by rw [ht]; exact hs.options, [], [],
      ⟨by simp [ht, hload], by rw [ht]; exact hequations, ?_⟩, rfl, .inl ⟨rfl, rfl⟩, Nat.zero_le _⟩
    rw [ht, show ({ s with loading := s.loading + 1 } : Store).programs = [p] from hprograms]
    exact .cons (.empty hp) .nil
  have hsteady : t.Steady o s.edits := by
    rw [ht]
    exact ⟨⟨hs.options, hs.word, hs.limit⟩, fun _ => rfl⟩
  have hloaded := Store.loadPrograms_intake codes 0 hbegin
  have hkept := Store.leads_loadPrograms_steady codes 0 (.user 0, -1) t hsteady
  have hopen : Store.beginBulkLoad s = .ok () t := by rw [ht]; rfl
  simp only [bulkLoad, bind, EStateM.bind, hopen]
  generalize loadPrograms 0 codes (.user 0, -1) t = r at hloaded hkept
  cases hloaded with
  | ok h =>
    obtain ⟨lss, hfilling⟩ := h
    obtain ⟨s', hrun, hs'⟩ := hfilling.endBulkLoad_stocked hkept
    simp only [hrun]
    exact .ok hs'
  | error h =>
    obtain ⟨lss, hfilling⟩ := h.filling
    obtain ⟨s', hrun, hs'⟩ := hfilling.endBulkLoad_stocked hkept
    simp only [hrun]
    exact .error ⟨h.crash, hs'⟩

end Keystroke
