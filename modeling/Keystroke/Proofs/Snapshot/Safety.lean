import Keystroke.Proofs.Compile.Ledger
import Keystroke.Proofs.Snapshot.Intake
import Keystroke.Proofs.Snapshot.RoundTrip

set_option autoImplicit false

/-! # Restoring any snapshot

A snapshot is restored into a new session whatever it holds. Afterwards the store is intact
(`Store.Intact`): programs are whole lines with no known targets, the label table is up to date, no
bulk load is open and memory is within its limit. When restoring fails, the equations that were
compiled before are freed again. -/

namespace Keystroke

variable {p : Program} {e : Expr} {depth : Int} {held : List ProgramRef}

open Operation List Store Session

variable {o options : Options} {s0 s : Store} {n : Nat}

/-- The program consists of whole lines and its END, and no jump in it has a target. -/
def Program.Pristine (p : Program) : Prop :=
  ∃ ls, p.Holds ls ∧ ∀ l ∈ ls, l.target = targetUnknown

theorem Program.Pristine.empty (h : p.buffer.text = endBytes) : p.Pristine :=
  ⟨[], holds_nil h, by simp⟩

namespace Store

/-! ## Storing code -/

section

variable {s' : Store} {p : Program} {front : List Line} {pc : Int} {k : Nat} {code : List Instr}

theorem storeInto_pristine {c : Code} (hp : s.program? (.equation k) = some p)
    (hread : Readable s.programs) (hresolve : c.resolve = .ok code) (hcode : ∀ i ∈ code, i.Literal)
    (hrun : c.storeInto (.equation k) s = .ok () s') :
    ∃ q, s'.program? (.equation k) = some q ∧ q.Pristine := by
  rcases storeInto_cases hp hresolve hcode (fun _ _ _ _ => by simp) (by simp) (fun _ _ _ => hread)
    with ⟨ls, q, t, hok, ht, hq, hls⟩ | ⟨e, t, herror, -⟩
  · obtain ⟨-, rfl⟩ := EStateM.Result.ok.inj (hrun.symm.trans hok)
    refine ⟨q, by rw [ht.program?, program?_setProgram_self _ hp], ls, hq, fun l hl => ?_⟩
    obtain ⟨i, -, hwrites⟩ := exists_left_of_mem hls.flip hl
    exact hwrites.target
  · cases hrun.symm.trans herror

theorem within_storeInto (c : Code) (ref : ProgramRef) :
    Leads (Within o) (c.storeInto ref) (Within o) := by
  intro s hs
  unfold Code.storeInto
  cases c.resolve with
  | error e => exact hs
  | ok code =>
    rw [bind_ok (Edit.ofExcept_ok code), withGeneratedEdit]
    have hopen : s.openGenerated.Within o := ⟨hs.options, hs.word, hs.limit⟩
    have hstore := (kept_steady ref).clearProgram.bind
      (fun _ => (kept_steady ref).storeLines (cuts_steady ref) (-1) code) _ hopen.steady
    generalize (do clearProgram ref; Code.storeLines ref (-1) code : Edit Unit) s.openGenerated = r
      at hstore
    cases r with
    | ok _ t =>
      have ht : t.Within o := hstore.toWithin
      exact ⟨ht.options, ht.word, ht.limit⟩
    | error e t =>
      have ht : t.Within o := hstore.toWithin
      exact ⟨ht.options, ht.word, ht.limit⟩

theorem within_newEquationSlot : Leads (Within o) newEquationSlot (Within o) := by
  intro s hs
  have hempty := leads_emptyProgram leads_allocate_steady true s hs.steady
  unfold newEquationSlot
  cases hrun : emptyProgram true s with
  | error e t =>
    rw [hrun] at hempty
    rw [bind_error hrun]
    exact hempty.toWithin
  | ok p t =>
    rw [hrun] at hempty
    have ht : t.Within o := hempty.toWithin
    rw [bind_ok hrun, get_bind]
    cases t.equations.findIdx? (·.isNone) <;> exact ⟨ht.options, ht.word, ht.limit⟩

end

end Store

/-! ## Compiling -/

/-- Compiling an expression that was read takes a slot for a program of whole lines, or leaves no
    more than a free slot behind. -/
theorem Expr.compile_intake (hs : s.Within o) (hlisted : s.Listed) (hproper : e.Proper)
    (names : NameTable) :
    Outcome
      (fun ref s' => ∃ p : Program, ref = .equation s.freeSlot ∧
        s' = s.opened.host s.freeSlot p ∧ p.refs = 0 ∧ p.Pristine ∧ s'.Within o)
      (fun cause s' => s'.edits = s.edits ∧
        (cause.isCrash = true → s.options.Exceeded (s.compiledSize names e)) ∧
        (cause.isCrash = false → s' = s ∨ s' = s.opened))
      (e.compile names s) := by
  obtain ⟨lss, hlss, hlabels⟩ := hlisted.lines
  have htable : labelTable 0 s.programs = .ok s.labels := by
    rw [hlabels]
    exact labelTable_of_holds hlss 0
  have hread := hlisted.readable
  obtain ⟨code, -, hresolve, -⟩ := e.resolve_program names
  have haccounts := e.compile_accounts htable hs.word names
  generalize hrun : e.compile names s = r at haccounts
  cases haccounts with
  | @taken p hrefs _ =>
    obtain ⟨s1, hslot, hstore⟩ := slot_and_code_of_compile hrun
    have hwithin1 := within_newEquationSlot s hs
    rw [hslot] at hwithin1
    have hwithin := within_storeInto (e.program names) (.equation s.freeSlot) s1 hwithin1
    rw [show (e.program names).storeInto (.equation s.freeSlot) s1 = _ from hstore] at hwithin
    -- the slot held an empty program before the code was stored
    rcases s.newEquationSlot_cases with ⟨p0, hnew, -⟩ | ⟨cause, used, hnew, -⟩
    · obtain rfl : s1 = s.opened.host s.freeSlot p0 :=
        (EStateM.Result.ok.inj (hslot.symm.trans hnew)).2
      obtain ⟨q, hq, hpristine⟩ := storeInto_pristine (program?_host s.freeSlot_lt)
        hread hresolve (spelled_program hproper hresolve) hstore
      obtain rfl : p = q := Option.some.inj ((program?_host s.freeSlot_lt).symm.trans hq)
      exact .ok ⟨p, rfl, rfl, hrefs, hpristine, hwithin⟩
    · cases hslot.symm.trans hnew
  | @refused cause s' he hs' =>
    refine .error ⟨?_, by simp [he], fun _ => hs'⟩
    rcases hs' with rfl | rfl <;> rfl
  | @overgrown s' used hbig hs' =>
    refine .error ⟨?_, fun _ => hbig, fun hcrash => by cases hcrash⟩
    rcases hs' with rfl | ⟨p, rfl⟩ <;> rfl

namespace Store

/-! ## Intact stores -/

/-- Every program is made of whole lines and its END with no target known, the label table is what
    a rebuild gives, no bulk load is open, and memory in use is within the limit. -/
structure Intact (s : Store) : Prop where
  programs : ∀ p ∈ s.programs, p.Pristine
  slots : ∀ k p, s.slot? k = some p → p.Pristine
  labels : rebuildLabels s = .ok () s
  loading : s.loading = 0
  memory : 0 < s.options.memoryLimit → s.used ≤ s.options.memoryLimit

theorem Stocked.pristine (h : s.Stocked o n) : ∀ p ∈ s.programs, p.Pristine := by
  obtain ⟨lss, hlss, -⟩ := h.programs
  generalize s.programs = ps at hlss
  induction hlss with
  | nil => simp
  | cons hp _ ih => exact forall_mem_cons.2 ⟨⟨_, hp.holds, hp.unknown⟩, ih⟩

theorem Stocked.listed (h : s.Stocked o n) : s.Listed := by
  obtain ⟨lss, hlss, hlabels⟩ := h.programs
  exact ⟨lss, LoadedAs.forall_holds hlss, hlabels⟩

theorem Listed.rebuildLabels_eq (h : s.Listed) : rebuildLabels s = .ok () s := by
  obtain ⟨lss, hlss, hlabels⟩ := h.lines
  unfold rebuildLabels
  rw [get_bind, labelTable_of_holds hlss 0, bind_ok (Edit.ofExcept_ok _), ← hlabels]
  rfl

/-- Whatever whole programs are put into the slots of a stocked store, it is intact. -/
theorem Stocked.intact {held : List ProgramRef} (hs : s0.Stocked o n) (h : s0.Ledger held s)
    (hwithin : s.Within o) (hslots : ∀ k p, s.slot? k = some p → p.Pristine) : s.Intact := by
  have hprograms : s.programs = s0.programs := by rw [h.rest]
  have hlisted : s.Listed := hs.listed.of_same hprograms (by rw [h.rest])
  refine ⟨hprograms ▸ hs.pristine, hslots, hlisted.rebuildLabels_eq, ?_, ?_⟩
  · rw [h.rest]
    exact hs.loading
  · rw [hwithin.options]
    exact hwithin.limit

theorem slot?_of_free (h : ∀ x ∈ s.equations, x = none) (k : Nat) : s.slot? k = none := by
  rw [slot?_of_getElem?]
  cases hget : s.equations[k]? with
  | none => rfl
  | some x =>
    obtain rfl := h x (mem_of_getElem? hget)
    rfl

end Store

/-! ## Restoring equations -/

/-- The equation compiles to more bytes than a buffer can be grown to. -/
def SavedEquation.Oversized (names : NameTable) (saved : SavedEquation) : Prop :=
  ∃ e, Equation.parse saved.compat saved.source = .ok e ∧
    maxCapacity < 2 * (endBytes.length + ((e.tree.codeLines names).map Instr.size).sum)

/-- What a failure leaves behind: an intact store with all slots free, unless it crashed. -/
structure Store.Undone (large : Prop) (edits : Nat) (cause : Error) (s : Store) : Prop where
  edits : s.edits = edits
  crash : cause.isCrash = true → large
  intact : cause.isCrash = false → s.Intact ∧ ∀ k, s.slot? k = none

theorem Expr.compiledSize_of_proper (h : e.Proper) (names : NameTable) (s : Store) :
    s.compiledSize names e = endBytes.length + ((e.codeLines names).map Instr.size).sum := by
  obtain ⟨code, -, hresolve, -⟩ := e.resolve_program names
  rw [compiledSize, codeLines_of_resolve hresolve]
  congr 2
  refine map_congr_left fun i hi => ?_
  exact storedSize_of_kind (spelled_program h hresolve i hi).1

/-- A saved equation is compiled into a slot, or it leaves no more than a free slot behind. -/
theorem SavedEquation.restore_intake (hs : s0.Stocked o n) (h : s0.Ledger held s)
    (hwithin : s.Within o) (names : NameTable) (saved : SavedEquation) :
    Outcome
      (fun e t => e.program ≠ .none ∧ s0.Ledger (e.slots ++ held) t ∧ t.Within o ∧
        ∀ k p, t.slot? k = some p → s.slot? k = some p ∨ p.Pristine)
      (fun cause t => t.edits = n ∧
        (cause.isCrash = true →
          (maxCapacity : Int) < o.initialCapacity ∨ saved.Oversized names) ∧
        (cause.isCrash = false → s0.Ledger held t))
      (saved.restore names s) := by
  have hedits : s.edits = n := h.edits.trans hs.edits
  unfold restore
  cases hparse : Equation.parse saved.compat saved.source with
  | error cause =>
    have hplain : (Error.parse cause).isCrash = false := by cases cause <;> rfl
    exact .error ⟨hedits, by simp [hplain], fun _ => h⟩
  | ok e =>
    have hproper := (Equation.read_of_parse hparse).proper
    obtain ⟨hprogram, hsolutions⟩ : e.program = .none ∧ e.solutions = [] := by
      obtain ⟨t, -, rfl⟩ := Equation.exists_of_parse hparse
      exact ⟨rfl, rfl⟩
    change Outcome _ _ ((if e.fingerprint ≠ saved.fingerprint then
      throw (.fingerprintMismatch saved.source e.fingerprint saved.fingerprint)
      else e.compile names : Edit Equation) s)
    split
    · refine .error ⟨hedits, ?_, fun _ => h⟩
      intro hcrash
      cases hcrash
    · have hlisted : s.Listed := hs.listed.of_same (by rw [h.rest]) (by rw [h.rest])
      have hcompile := Expr.compile_intake hwithin hlisted hproper names
      rw [Equation.compile, if_neg (not_not.2 hprogram)]
      generalize hrun : e.tree.compile names s = r at hcompile
      cases hcompile with
      | ok hr =>
        obtain ⟨p, rfl, rfl, hrefs, hpristine, hwithin'⟩ := hr
        rw [bind_ok hrun]
        refine .ok ⟨by simp, ?_, hwithin', fun k q hq => ?_⟩
        · simpa [Equation.slots, hsolutions] using h.take hrefs
        · by_cases hk : k = s.freeSlot
          · subst hk
            obtain rfl := Option.some.inj ((program?_host s.freeSlot_lt).symm.trans hq)
            exact .inr hpristine
          · rw [slot?_host_ne hk, slot?_opened] at hq
            exact .inl hq
      | error hr =>
        obtain ⟨hsame, hcrash, hkept⟩ := hr
        rw [bind_error hrun]
        refine .error ⟨hsame.trans hedits, fun hc => ?_, fun hc => ?_⟩
        · have hbig := hcrash hc
          rw [Options.Exceeded, hwithin.options, Expr.compiledSize_of_proper hproper] at hbig
          exact hbig.imp_right fun h => ⟨e, hparse, h⟩
        · rcases hkept hc with rfl | rfl
          · exact h
          · exact h.opened

/-- Equations are restored one after the other, or all that were are freed. -/
theorem restoreEquations_safe (hs : s0.Stocked o n) (names : NameTable) (saved : List SavedEquation)
    (done : List Equation) (hdone : ∀ e ∈ done, e.program ≠ .none)
    (h : s0.Ledger (done.flatMap Equation.slots) s) (hwithin : s.Within o)
    (hslots : ∀ k p, s.slot? k = some p → p.Pristine) :
    Outcome (fun _ s' => s'.edits = n ∧ s'.Intact)
      (Store.Undone ((maxCapacity : Int) < o.initialCapacity ∨
        ∃ e ∈ saved, e.Oversized names) n)
      (restoreEquations names saved done s) := by
  induction saved generalizing done s with
  | nil => exact .ok ⟨h.edits.trans hs.edits, hs.intact h hwithin hslots⟩
  | cons first rest ih =>
    have hfirst := first.restore_intake hs h hwithin names
    simp only [restoreEquations]
    generalize first.restore names s = r at hfirst
    cases hfirst with
    | @ok e t ht =>
      obtain ⟨hprogram, ht, hwithin', hnew⟩ := ht
      have hmore := ih (done ++ [e])
        (forall_mem_append.2 ⟨hdone, forall_mem_singleton.2 hprogram⟩)
        (ht.perm (by simpa using perm_append_comm)) hwithin'
        fun k p hp => (hnew k p hp).elim (hslots k p) id
      refine hmore.imp (fun _ _ h => h) fun cause t h => ⟨h.edits, fun hc => ?_, h.intact⟩
      refine (h.crash hc).imp_right ?_
      rintro ⟨e, he, hbig⟩
      exact ⟨e, mem_cons_of_mem _ he, hbig⟩
    | @error cause t ht =>
      obtain ⟨hedits, hcrash, hkept⟩ := ht
      dsimp only
      split
      · next hc =>
        refine .error ⟨hedits, fun _ => ?_, fun hn => by rw [hc] at hn; cases hn⟩
        exact (hcrash hc).imp_right fun hbig => ⟨first, mem_cons_self, hbig⟩
      · next hc =>
        -- all slots are free again, and only the user's programs are counted
        have hfree : s0.Ledger [] (Equation.freeAll done t) :=
          Equation.ledger_freeAll (by simpa using hkept (by simpa using hc))
            fun e he hnone => absurd hnone (hdone e he)
        have hused : (Equation.freeAll done t).used = s0.used := by simpa [hs.word] using hfree.used
        have hnone (k : Nat) : (Equation.freeAll done t).slot? k = none :=
          (hfree.others k (by simp)).trans (slot?_of_free (by simp [hs.equations]) k)
        refine .error ⟨hfree.edits.trans hs.edits, fun hc' => absurd hc' hc, fun _ => ⟨?_, hnone⟩⟩
        refine hs.intact hfree ⟨?_, hfree.word, hused ▸ hs.limit⟩ (by simp [hnone])
        rw [hfree.rest]
        exact hs.options

/-! ## Restoring sessions -/

/-- The snapshot asks for memory that there cannot be: by the least capacity of the settings, for a
    program of a tebibyte or more, or for an equation with more code than a buffer can have. -/
def Snapshot.Oversized (options : Options) (names : NameTable) (snap : Snapshot) : Prop :=
  (maxCapacity : Int) < options.normalize.initialCapacity ∨
    (∃ code ∈ snap.programs, 2 ^ 40 ≤ code.length) ∨ ∃ e ∈ snap.equations, e.Oversized names

/-- How restoring a snapshot can end. -/
inductive Snapshot.Restored (large : Prop) : EStateM.Result Error Session (List Equation) → Prop
  | complete {es : List Equation} {s : Session} : s.store.Intact → Restored large (.ok es s)
  | refused {cause : Error} {s : Session} : cause.isCrash = false → s.store.Intact →
      (∀ k, s.store.slot? k = none) → Restored large (.error cause s)
  | crashed {cause : Error} {s : Session} : cause.isCrash = true → large →
      Restored large (.error cause s)

namespace Session

theorem IsNew.within {s : Session} (h : s.IsNew options) : s.store.Within options.normalize := by
  have hused := h.books.used
  rw [inWord_of_lt (Nat.lt_trans h.books.small (by decide))] at hused
  exact ⟨h.books.options, h.books.word, fun hpos => hused ▸ h.books.limit hpos⟩

theorem IsNew.intact {s : Session} (h : s.IsNew options) : s.store.Intact := by
  have hlimit := h.within.limit
  rw [← h.books.options] at hlimit
  refine ⟨?_, fun k p hp => ?_, h.listed.rebuildLabels_eq, h.loading, hlimit⟩
  · rcases h.programs with ⟨p, hone, hp⟩ | ⟨hnone, -⟩
    · rw [hone]
      exact forall_mem_singleton.2 (.empty hp.text)
    · simp [hnone]
  · rw [slot?_of_free (by simp [h.equations])] at hp
    cases hp

theorem clearReturns_of_new {s : Session} (h : s.calls = .new depth) :
    clearReturns s = .ok () { s with running := false, locals := [], funcs := [] } := by
  cases s
  subst h
  rfl

end Session

theorem Store.Stocked.intact_self (h : s.Stocked o n) : s.Intact ∧ ∀ k, s.slot? k = none := by
  have hnone := slot?_of_free (s := s) (by simp [h.equations])
  exact ⟨h.intact (.start h.word) h.toWithin (by simp [hnone]), hnone⟩

theorem Snapshot.restored_of_empty {s : Session} (hwithin : s.store.Within options.normalize)
    (hloading : s.store.loading = 0) (hequations : s.store.equations = [])
    (hcalls : s.calls = .new depth) (hone : s.store.programs = [p]) (hp : Store.Empty false p)
    (names : NameTable) (snap : Snapshot) :
    Restored (snap.Oversized options names) ((do
      edit (bulkLoad snap.programs)
      clearReturns
      modify fun s => { s with vars := s.vars.restore snap }
      edit (restoreEquations names snap.equations []) : Machine (List Equation)) s) := by
  have hload := bulkLoad_intake snap.programs hwithin hloading hequations hone hp
  generalize hrun : bulkLoad snap.programs s.store = r at hload
  cases hload with
  | @error cause store h =>
    obtain ⟨hcrash, hstocked⟩ := h
    rw [bind_error (edit_of_error hrun hstocked.edits)]
    cases hc : cause.isCrash with
    | false =>
      obtain ⟨hintact, hfree⟩ := hstocked.intact_self
      exact .refused hc hintact hfree
    | true =>
      obtain ⟨code, hcode, hbig⟩ := hcrash hc
      exact .crashed hc (hbig.imp_right fun hlong => .inl ⟨code, hcode, hlong⟩)
  | @ok _ store hstocked =>
    rw [bind_ok (edit_of_ok hrun hstocked.edits),
      bind_ok (clearReturns_of_new (s := { s with store := store }) hcalls), modify_bind]
    have hrestore := restoreEquations_safe hstocked names snap.equations [] (by simp)
      (.start hstocked.word) hstocked.toWithin
      (by simp [slot?_of_free (s := store) (by simp [hstocked.equations])])
    generalize hrun' : restoreEquations names snap.equations [] store = r' at hrestore
    cases hrestore with
    | ok h =>
      rw [edit_of_ok hrun' (h.1.trans hstocked.edits.symm)]
      exact .complete h.2
    | @error cause store' h =>
      rw [edit_of_error hrun' (h.edits.trans hstocked.edits.symm)]
      cases hc : cause.isCrash with
      | false => exact .refused hc (h.intact hc).1 (h.intact hc).2
      | true => exact .crashed hc ((h.crash hc).imp_right .inr)

/-- Restoring a snapshot into a new session is safe, whatever the snapshot holds: the store is
    intact afterwards, and when restoring fails no slot is taken. It crashes only where memory is
    asked for that there cannot be. -/
theorem Snapshot.restore_safe {options : Options} {s : Session} (hnew : Session.new options = .ok s)
    (names : NameTable) (snap : Snapshot) :
    Restored (snap.Oversized options names) (snap.restore names s) := by
  have hs := isNew_of_new hnew
  have hintact := hs.intact
  have hfree : ∀ k, s.store.slot? k = none := slot?_of_free (by simp [hs.equations])
  by_cases hversion : snap.version = snapshotVersion
  · have hcheck : Machine.ofExcept snap.checkVersion s = .ok () s := by
      rw [checkVersion, if_pos hversion]
      rfl
    rw [restore, bind_ok hcheck, get_bind]
    rcases hs.programs with ⟨p, hone, hp⟩ | ⟨hnone, -⟩
    · rw [isEmpty_of_empty hone hp]
      exact restored_of_empty hs.within hs.loading hs.equations hs.calls hone hp names snap
    · have hempty : s.isEmpty = false := by simp [Session.isEmpty, hnone]
      rw [hempty]
      exact .refused rfl hintact hfree
  · have hcheck : Machine.ofExcept snap.checkVersion s
        = .error (.unsupportedVersion snap.version.toNat) s := by
      rw [checkVersion, if_neg hversion]
      rfl
    rw [restore, bind_error hcheck]
    exact .refused rfl hintact hfree

/-- The classes of the error with which restoring into a new session fails, and the number of
    programs that are there then. -/
def Snapshot.failure (options : Options) (names : NameTable) (snap : Snapshot) :
    Option (List Cause × Nat) :=
  match Session.new options with
  | .error _ => none
  | .ok s =>
    match snap.restore names s with
    | .ok _ _ => none
    | .error cause s => some (cause.causes, s.store.programs.length)

theorem Snapshot.exists_of_failure {names : NameTable} {snap : Snapshot} {causes : List Cause}
    (h : snap.failure options names = some (causes, n)) :
    ∃ s cause s', Session.new options = .ok s ∧ snap.restore names s = .error cause s' ∧
      cause.causes = causes ∧ s'.store.programs.length = n := by
  unfold failure at h
  split at h
  · cases h
  · next s hnew =>
    split at h
    · cases h
    · next cause s' hrun =>
      cases h
      exact ⟨s, cause, s', hnew, hrun, rfl, rfl⟩

/-- The lines LBL 5 and END, and the first byte of another line. -/
def Snapshot.cutOff : Snapshot where
  programs := [[0x5C, 1, 0x85, 0x90, 0, 0x8F]]

/-- Two empty programs. -/
def Snapshot.twoEmpty : Snapshot where
  programs := [endBytes, endBytes]

/-- A limit of a hundred bytes, and a least capacity that is the greatest number of a word. -/
def Options.wrapping : Options where
  memoryLimit := 100
  initialCapacity := 9223372036854775807

/-- A line that is cut off is refused, and the two programs in front of it are intact. Two empty
    programs crash where the least capacity makes the count of memory wrap around. -/
theorem Snapshot.restore_safe_wrapping :
    (∃ s cause s', Session.new {} = .ok s ∧ cutOff.restore .standard s = .error cause s' ∧
      cause.causes = [.invalidInstruction] ∧ s'.store.programs.length = 2 ∧ s'.store.Intact ∧
      ∀ k, s'.store.slot? k = none) ∧
    ∃ s cause s', Session.new .wrapping = .ok s ∧
      twoEmpty.restore .standard s = .error cause s' ∧ cause.causes = [.crash] ∧
      twoEmpty.Oversized .wrapping .standard := by
  constructor
  · obtain ⟨s, cause, s', hnew, hrun, hcause, hlength⟩ :=
      @exists_of_failure {} 2 .standard cutOff [.invalidInstruction] (by decide +kernel)
    have hsafe := restore_safe hnew .standard cutOff
    rw [hrun] at hsafe
    cases hsafe with
    | refused _ hintact hfree => exact ⟨s, cause, s', hnew, hrun, hcause, hlength, hintact, hfree⟩
    | crashed hcrash =>
      rw [Error.isCrash, hcause] at hcrash
      cases hcrash
  · obtain ⟨s, cause, s', hnew, hrun, hcause, -⟩ :=
      @exists_of_failure .wrapping 1 .standard twoEmpty [.crash] (by decide +kernel)
    have hsafe := restore_safe hnew .standard twoEmpty
    rw [hrun] at hsafe
    cases hsafe with
    | refused hplain =>
      rw [Error.isCrash, hcause] at hplain
      cases hplain
    | crashed _ hlarge => exact ⟨s, cause, s', hnew, hrun, hcause, hlarge⟩

/-! ## Memory for what was saved -/

theorem sizes_of_holds {ps : List Program} {lss : List (List Line)}
    (h : List.Forall₂ Program.Holds ps lss) :
    (lss.map fun ls => (codeOf ls).length) = ps.map (·.buffer.text.length) := by
  induction h with
  | nil => rfl
  | cons hp _ ih => rw [map_cons, map_cons, codeOf, ← hp.text, ih]

namespace Session

theorem capture_of_edited {s : Session} (h : ∀ p ∈ s.store.programs, p.Edited) :
    ∃ lss snap, s.capture [] = .ok snap ∧ snap.version = snapshotVersion ∧
      snap.programs = lss.map codeOf ∧ snap.equations = [] ∧
      (∀ ls ∈ lss, ∀ l ∈ ls, l.Fresh) ∧ List.Forall₂ Program.Holds s.store.programs lss := by
  obtain ⟨lss, hlss⟩ := exists_forall₂ h
  have hfresh : ∀ ls ∈ lss, ∀ l ∈ ls, l.Fresh := by
    intro ls hls
    obtain ⟨p, -, hp⟩ := exists_left_of_mem hlss hls
    exact hp.2
  have hrecorded : List.Forall₂ Program.Recorded s.store.programs lss := by
    refine hlss.imp fun p ls hp => ⟨hp.1, fun l hl => ?_⟩
    rw [Line.Recorded, ← (hp.2 l hl).target, Line.withTarget_target]
    exact hp.2 l hl
  have hcodes : (lss.map fun ls => codeOf (clearAll ls)) = lss.map codeOf :=
    map_congr_left fun ls hls => by rw [Line.Fresh.clearAll (hfresh ls hls)]
  refine ⟨lss, ?_⟩
  rw [capture, mapM_canonicalText hrecorded, hcodes]
  exact ⟨_, rfl, rfl, rfl, rfl, hfresh, hlss.imp fun _ _ hp => hp.1⟩

theorem IsNew.bulkLoad_short {t : Session} {lss : List (List Line)} (ht : t.IsNew options)
    (hone : t.store.programs = [p]) (hp : Store.Empty false p)
    (hfresh : ∀ ls ∈ lss, ∀ l ∈ ls, l.Fresh) :
    Outcome (fun _ _ => True) (fun cause _ =>
        (cause = .outOfBounds → ∃ ls ∈ lss, options.normalize.Exceeded (codeOf ls).length) ∧
        (cause ≠ .outOfBounds → 0 < options.normalize.memoryLimit ∧
          ¬ options.normalize.Fits 0 (lss.map fun ls => (codeOf ls).length)))
      (bulkLoad (lss.map codeOf) t.store) := by
  by_cases hne : lss = []
  · subst hne
    have hfilling : { t.store with loading := t.store.loading + 1 }.Filling [[]] :=
      ⟨by simp [ht.loading], ht.equations, by
        rw [hone]
        exact .cons (.empty hp) .nil⟩
    obtain ⟨s', hrun, -⟩ := hfilling.endBulkLoad_eq_ok
    rw [show bulkLoad (map codeOf []) t.store = .ok () s' from hrun]
    exact .ok trivial
  · exact (bulkLoad_codeOf ht.books.toBooks ht.room ht.loading ht.equations hone hp hne hfresh).imp
      (fun _ _ _ => trivial) fun _ _ h => h

/-- A session without equations that was edited only is saved, and restoring it into a new session
    with the same settings does not want for memory if there is no limit, or if the limit leaves
    room for each program beside those in front of it with twice the capacity that they need. It
    fails only if the new session has no program at all, or for a capacity no buffer can have. -/
theorem restore_fits {options : Options} {s t : Session} (h : Reachable editing options s.store)
    (hnew : new options = .ok t) (hroom : options.memoryLimit ≤ 0 ∨
      options.normalize.Fits 0 (s.store.programs.map (·.buffer.text.length))) (names : NameTable) :
    ∃ snap, s.capture [] = .ok snap ∧ ∀ cause t', snap.restore names t = .error cause t' →
      Cause.insufficientMemory ∉ cause.causes ∧ (t.store.programs = [] ∨
        ∃ p ∈ s.store.programs, options.normalize.Exceeded p.buffer.text.length) := by
  have hsound := Reachable.sound (stable_edited _) h
  obtain ⟨lss, snap, hcapture, hversion, hprograms, hequations, hfresh, hholds⟩ :=
    capture_of_edited fun p hp => (hsound.1.programs p hp).1
  refine ⟨snap, hcapture, fun cause t' hrun => ?_⟩
  have ht := isNew_of_new hnew
  have hcheck : Machine.ofExcept snap.checkVersion t = .ok () t := by
    rw [Snapshot.checkVersion, if_pos hversion]
    rfl
  rw [Snapshot.restore, bind_ok hcheck, get_bind] at hrun
  rcases ht.programs with ⟨p, hone, hp⟩ | ⟨hnone, -⟩
  swap
  · rw [show t.isEmpty = false by simp [isEmpty, hnone]] at hrun
    cases hrun
    exact ⟨by simp [Error.causes], .inl hnone⟩
  rw [isEmpty_of_empty hone hp, hprograms, hequations] at hrun
  have hshort := ht.bulkLoad_short hone hp hfresh
  have hload := bulkLoad_intake (lss.map codeOf) ht.within ht.loading ht.equations hone hp
  generalize hbulk : bulkLoad (lss.map codeOf) t.store = r at hshort hload
  cases hload with
  | @ok _ store hstocked =>
    change (edit (bulkLoad (lss.map codeOf)) >>= _) t = _ at hrun
    rw [bind_ok (edit_of_ok hbulk hstocked.edits),
      bind_ok (clearReturns_of_new (s := { t with store := store }) ht.calls), modify_bind,
      edit_of_ok (show restoreEquations names [] [] _ = .ok _ _ from rfl) rfl] at hrun
    cases hrun
  | error hhalt =>
    change (edit (bulkLoad (lss.map codeOf)) >>= _) t = _ at hrun
    rw [bind_error (edit_of_error hbulk hhalt.2.edits)] at hrun
    cases hrun
    cases hshort with
    | error h =>
    by_cases hcrash : cause = .outOfBounds
    · obtain ⟨ls, hls, hbig⟩ := h.1 hcrash
      obtain ⟨p, hmem, hp⟩ := exists_left_of_mem hholds hls
      rw [codeOf, ← hp.text] at hbig
      exact ⟨by simp [hcrash, Error.causes], .inr ⟨p, hmem, hbig⟩⟩
    · obtain ⟨hpos, hno⟩ := h.2 hcrash
      rw [sizes_of_holds hholds] at hno
      exact absurd (hroom.resolve_left (Int.not_le.2 hpos)) hno

/-- Twelve bytes, and a least capacity of two. -/
def narrow : Options where
  memoryLimit := 12
  initialCapacity := 2

/-- Two programs without room for more. -/
def packed (first second : Bytes) (used : Int) (edits : Nat) : Store where
  options := narrow
  programs := [first, second].map fun code =>
    { buffer := ⟨code ++ endBytes, [], 0⟩, cachesClear := true }
  labels := [⟨none, 0, first.length⟩, ⟨none, 1, second.length⟩]
  used := used
  edits := edits

/-- Two programs of four bytes fit into twelve: eight are kept for the first one. -/
theorem restore_fits_narrow :
    ∃ (s t : Session) (snap : Snapshot), s.store = packed [1, 0] [1, 0] 8 3 ∧
      Reachable editing narrow s.store ∧ new narrow = .ok t ∧ s.capture [] = .ok snap ∧
      ∀ cause t', snap.restore .standard t = .error cause t' →
        Cause.insufficientMemory ∉ cause.causes := by
  have henter : (Instr.plain .enter).WellFormed :=
    ⟨⟨_, rfl⟩, by decide, by decide, by decide, by decide⟩
  have hobeys {s : Store} {ref : ProgramRef} {line : Instr} (h : editing.line line) :
      (Request.insert ref (-1) line).Obeys editing s := ⟨⟨none, rfl⟩, h⟩
  obtain ⟨s, hs, hend⟩ : ∃ s, Store.new narrow = .ok s ∧
      (Request.insert (.user 0) (-1) (.plain .endLine)).run s
        = .ok (.program (.user 1)) (packed [] [] 4 1) := ⟨_, rfl, by decide +kernel⟩
  have hsecond : (Request.insert (.user 1) (-1) (.plain .enter)).run (packed [] [] 4 1)
      = .ok (.program (.user 1)) (packed [] [1, 0] 6 2) := by decide +kernel
  have hfirst : (Request.insert (.user 0) (-1) (.plain .enter)).run (packed [] [1, 0] 6 2)
      = .ok (.program (.user 0)) (packed [1, 0] [1, 0] 8 3) := by decide +kernel
  have hreach : Reachable editing narrow (packed [1, 0] [1, 0] 8 3) :=
    .ok (.ok (.ok (.new hs) (hobeys (.inl rfl)) hend) (hobeys (.inr henter)) hsecond)
      (hobeys (.inr henter)) hfirst
  obtain ⟨t, ht⟩ : ∃ t, new narrow = .ok t := ⟨_, rfl⟩
  obtain ⟨snap, hcapture, hrestore⟩ := restore_fits
    (s := { t with store := packed [1, 0] [1, 0] 8 3 }) hreach ht
    (.inr ⟨by decide, by decide, trivial⟩) .standard
  exact ⟨_, t, snap, rfl, hreach, ht, hcapture, fun cause t' h => (hrestore cause t' h).1⟩

end Session

end Keystroke
