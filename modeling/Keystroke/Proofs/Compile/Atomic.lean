import Keystroke.Compile.Equation
import Keystroke.Proofs.Compile.Simulation
import Keystroke.Proofs.Machine.Returns
import Keystroke.Proofs.Store.Refusal
import Keystroke.Proofs.Store.Slots

set_option autoImplicit false

/-! # Compiling is atomic

While code is stored into an equation slot, the store is the one from before with some program in
that slot and the capacity of its buffer counted on top (`Store.host`). A refusal at any line
leaves it so, and freeing the slot then takes the whole count back. Compiling therefore takes one
free slot and nothing else, or fails and leaves no trace (`Expr.compile_accounts`). Only a crash
leaves the slot in use. -/

namespace Keystroke

variable {text : Bytes} {pc : Int} {p : Program}

open Operation Session

/-- What an operation answers, whatever it leaves behind. -/
def Operation.answer {σ α : Type} : EStateM.Result Error σ α → Except Error α
  | .ok a _ => .ok a
  | .error e _ => .error e

/-- If the line names no entry of the label table, then a slot can hold it. -/
def Instr.Admitted (i : Instr) : Prop :=
  i.operand.kind ≠ .labelIndex → i.command ≠ .endLine ∧ i.encode.isOk = true

namespace Store

/-! ## A store with a program in a slot -/

/-- A compiled program that is being written: so many bytes, no target known, no return pending. -/
structure Draft (n : Nat) (p : Program) : Prop where
  size : p.buffer.text.length = n
  clear : p.cachesClear = true
  refs : p.refs = 0

/-- A store whose compiled programs may be edited, whose label table is that of its programs, and
    that has the slot. -/
structure Ready (s : Store) (k : Nat) : Prop where
  labels : labelTable 0 s.programs = .ok s.labels
  open_ : s.generatedEdits ≠ 0
  slot : k < s.equations.length

section

variable {s : Store} {k n : Nat} {p q : Program}

theorem setProgram_host (s : Store) (k : Nat) (p q : Program) :
    { s.host k p with used := inWord (s.used + q.buffer.capacity) }.setProgram (.equation k) q
      = s.host k q := by
  simp only [setProgram, host, Int.toNat_natCast, List.set_set]

theorem edited_host (hs : s.Ready k) : edited (s.host k p) = .ok () (s.host k p) := by
  have hopen : (s.host k p).generatedEdits ≠ 0 := hs.open_
  have hsame : (if (s.host k p).loading = 0 && (s.host k p).generatedEdits = 0 then
      { s.host k p with edits := (s.host k p).edits + 1 } else s.host k p) = s.host k p := by
    simp [hopen]
  exact congrArg (EStateM.Result.ok ()) hsame

/-- Nothing is left to do after a line was put in: the label table is up to date already, no
    target is known, and no edit is counted. -/
theorem finishLineEdit_host (hs : s.Ready k) (hclear : p.cachesClear = true) (pc delta : Int)
    (isLabel : Bool) :
    finishLineEdit (.equation k) pc delta isLabel (s.host k p) = .ok () (s.host k p) := by
  have hlabels : rebuildLabels (s.host k p) = .ok () (s.host k p) := by
    unfold rebuildLabels
    rw [get_bind, show labelTable 0 (s.host k p).programs = .ok s.labels from hs.labels,
      bind_ok (Edit.ofExcept_ok s.labels)]
    rfl
  have hinvalidate : invalidate (.equation k) false (s.host k p) = .ok () (s.host k p) := by
    unfold invalidate
    rw [get_bind, program?_host hs.slot]
    simp [hclear]
  have hfinish : refreshTargets (.equation k) (s.host k p) = .ok () (s.host k p) := by
    rw [refreshTargets, get_bind]
    split
    · rw [bind_ok hinvalidate, edited_host hs]
    · rfl
  cases isLabel with
  | true => exact (bind_ok hlabels).trans hfinish
  | false => exact hfinish

/-! ## Storing lines -/

/-- How an operation on the program in a slot can end: with some program there; with an error that
    leaves one there; or crashed, having been granted more than can be had for `n` bytes. -/
inductive Ends (s : Store) (k n : Nat) {α : Type} (R : α → Program → Prop) :
    EStateM.Result Error Store α → Prop
  | done {a : α} {p : Program} : R a p → Ends s k n R (.ok a (s.host k p))
  | refused {e : Error} {p : Program} : e.isCrash = false → p.refs = 0 →
      Ends s k n R (.error e (s.host k p))
  | overgrown {p : Program} {used : Int} : s.options.Exceeded n → p.refs = 0 →
      Ends s k n R (.error .outOfBounds { s.host k p with used := used })

/-- Storing a line grows the program by the bytes of the line, and the count of memory by what its
    buffer grows by. -/
theorem putLine_host (hs : s.Ready k) (hp : Draft n p) (place : Nat) (line : Instr) :
    Ends s k (n + line.size)
      (fun ref q => ref = .equation k ∧ Draft (n + line.size) q ∧ line.Admitted)
      (putLine (.equation k) p place line (s.host k p)) := by
  unfold putLine
  split
  · exact .refused rfl hp.refs
  next hend =>
  cases hcode : line.encode with
  | error fault => exact .refused (Instr.isCrash_of_encode hcode) hp.refs
  | ok code =>
    have hsize : line.size = code.length := by rw [Instr.size, hcode]
    rw [hsize, ← hp.size]
    simp only [Except.mapError]
    rw [bind_ok (Edit.ofExcept_ok code)]
    -- The buffer is what is counted on top, so its new capacity takes the place of the old one.
    rcases reserve_cases p.buffer code.length (s.host k p) with
      ⟨b, used, hrun, htext, hgranted, hused⟩ | ⟨e, used, hrun, hdenied⟩
    · have hcapacity : (b.insertAt place code).capacity = b.capacity :=
        Buffer.capacity_insertAt place (by rw [htext]; exact hgranted.enough)
      have hcount : used = inWord (s.used + b.capacity) := by
        rw [hused (by simp only [host, inWord, Int.bmod_bmod]), host, inWord_add_inWord]
        congr 1
        omega
      have hset := setProgram_host s k p { p with buffer := b.insertAt place code }
      simp only [hcapacity] at hset
      rw [bind_ok hrun, modify_bind, hcount, hset, bind_ok
        (finishLineEdit_host (p := { p with buffer := b.insertAt place code }) hs hp.clear ..)]
      refine .done ⟨rfl, ⟨?_, hp.clear, hp.refs⟩, fun _ => ⟨hend, by rw [hcode]; rfl⟩⟩
      rw [Buffer.length_text_insertAt, htext]
    · rw [bind_error hrun]
      cases hcrash : e.isCrash with
      | false =>
        rw [refuses_reserve _ _ _ _ _ hrun hcrash]
        exact .refused hcrash hp.refs
      | true =>
        obtain ⟨rfl, hbig⟩ := hdenied.exceeded hcrash
        exact .overgrown hbig hp.refs

theorem Ends.imp {α : Type} {R S : α → Program → Prop} {r : EStateM.Result Error Store α}
    (h : Ends s k n R r) (hS : ∀ a q, R a q → S a q) : Ends s k n S r := by
  cases h with
  | done hR => exact .done (hS _ _ hR)
  | refused he hr => exact .refused he hr
  | overgrown hbig hr => exact .overgrown hbig hr

theorem Ends.bind {α β : Type} {R : α → Program → Prop} {S : β → Program → Prop} {x : Edit α}
    {f : α → Edit β} {t : Store} (hx : Ends s k n R (x t))
    (hf : ∀ a q, R a q → Ends s k n S (f a (s.host k q))) : Ends s k n S ((x >>= f) t) := by
  generalize hrun : x t = r at hx
  cases hx with
  | done hR =>
    rw [bind_ok hrun]
    exact hf _ _ hR
  | refused he hr =>
    rw [bind_error hrun]
    exact .refused he hr
  | overgrown hbig hr =>
    rw [bind_error hrun]
    exact .overgrown hbig hr

theorem insert_host (hs : s.Ready k) (hp : Draft n p) (place : Nat) (line : Instr) :
    Ends s k (n + s.storedSize line)
      (fun ref q => ref = .equation k ∧ Draft (n + s.storedSize line) q ∧ place + 2 ≤ n ∧
        line.Admitted)
      (insert (.equation k) place line (s.host k p)) := by
  have hfound : (s.host k p).program? (.equation k) = some p := program?_host hs.slot
  have heditable : (s.host k p).Editable p := fun _ => hs.open_
  rcases Nat.lt_or_ge p.buffer.text.length (place + endBytes.length) with hout | hin
  · rw [insert_outside line hfound heditable hout]
    exact .refused rfl hp.refs
  rw [insert_inside line hfound heditable (if_neg (by omega)) hin]
  rw [hp.size, show endBytes.length = 2 from rfl] at hin
  cases hline : s.resolved? line with
  | none =>
    rw [bind_error (resolve_of_none (s := s.host k p) hline)]
    exact .refused rfl hp.refs
  | some line' =>
    rw [bind_ok (resolve_of_some (s := s.host k p) hline), storedSize_of_some hline]
    refine (putLine_host hs hp place line').imp fun _ _ h => ⟨h.1, h.2.1, hin, fun hkind => ?_⟩
    rw [resolved?, if_neg hkind] at hline
    obtain rfl := Option.some.inj hline
    exact h.2.2 hkind

/-- The offset of a line, or the top. -/
def Reads (n : Nat) (pc : Int) : Prop := pc = -1 ∨ 0 ≤ pc ∧ pc + 2 ≤ n

theorem headerAt?_of_reads (hpc : 0 ≤ pc) (hin : pc + 2 ≤ text.length) :
    ∃ h, headerAt? text pc = some h := by
  have hlong : 2 ≤ (text.drop pc.toNat).length := by
    rw [List.length_drop]
    omega
  rw [headerAt?, bytesFrom?, if_neg (by omega)]
  cases hrest : text.drop pc.toNat with
  | nil => simp [hrest] at hlong
  | cons low rest =>
    cases rest with
    | nil => simp [hrest] at hlong
    | cons high rest => exact ⟨_, rfl⟩

theorem isCrash_of_lineSizeAt {fault : InstrFault} (hsmall : pc ≤ maxOffset)
    (h : lineSizeAt text pc = .error fault) : (Error.ofInstrFault fault).isCrash = false := by
  unfold lineSizeAt at h
  rw [if_neg (by omega)] at h
  split at h
  · cases h
    rfl
  · next bytes _ =>
    cases hread : lineSize bytes with
    | ok size =>
      rw [hread] at h
      cases h
    | error cause =>
      rw [hread] at h
      cases h
      exact Instr.isCrash_misread cause pc

theorem insertAfter_host (hs : s.Ready k) (hp : Draft n p) (hpc : Reads n pc) (line : Instr) :
    Ends s k (n + s.storedSize line)
      (fun r q => Draft (n + s.storedSize line) q ∧ Reads (n + s.storedSize line) r.2 ∧
        line.Admitted)
      (insertAfter (.equation k) pc line (s.host k p)) := by
  have hinsert (place : Nat) : Ends s k (n + s.storedSize line)
      (fun r q => Draft (n + s.storedSize line) q ∧ Reads (n + s.storedSize line) r.2 ∧
        line.Admitted)
      ((do return placed (.equation k) line place (← insert (.equation k) place line) :
        Edit (ProgramRef × Int)) (s.host k p)) := by
    refine (insert_host hs hp place line).bind ?_
    rintro current q ⟨rfl, hq, hplace, hline⟩
    rw [placed_self]
    exact .done ⟨hq, .inr ⟨by simp, by simp only; omega⟩, hline⟩
  unfold insertAfter
  rw [bind_ok (getProgram_of_some (program?_host hs.slot))]
  rcases hpc with rfl | ⟨hpos, hin⟩
  · rw [if_pos rfl]
    exact hinsert 0
  obtain ⟨place, rfl⟩ := Int.eq_ofNat_of_zero_le hpos
  obtain ⟨h, hh⟩ := headerAt?_of_reads hpos (by rw [hp.size]; exact hin)
  rw [if_neg (by omega), hh]
  simp only
  split
  · exact hinsert place
  cases hsize : lineSizeAt p.buffer.text place with
  | ok size => exact hinsert (place + size)
  | error fault =>
    by_cases hfar : maxOffset < (place : Int)
    · -- no offset is that large unless the text is
      have hfault : fault = .unaddressable := by
        rw [lineSizeAt, if_pos hfar] at hsize
        cases hsize
        rfl
      subst hfault
      refine @Ends.overgrown s k (n + s.storedSize line) _ _ p (s.host k p).used (.inr ?_) hp.refs
      rw [maxCapacity]
      rw [maxOffset] at hfar
      omega
    · exact .refused (isCrash_of_lineSizeAt (by omega) hsize) hp.refs

theorem storeLines_host (hs : s.Ready k) (lines : List Instr) (hp : Draft n p) (hpc : Reads n pc) :
    Ends s k (n + (lines.map s.storedSize).sum)
      (fun _ q => q.refs = 0 ∧ ∀ line ∈ lines, line.Admitted)
      (Code.storeLines (.equation k) pc lines (s.host k p)) := by
  -- Induction on the lines to store: each grows the draft by its bytes, or ends the matter.
  induction lines generalizing n p pc with
  | nil => exact .done ⟨hp.refs, nofun⟩
  | cons line rest ih =>
    rw [List.map_cons, List.sum_cons, ← Nat.add_assoc]
    have hinsert := insertAfter_host hs hp hpc line
    simp only [Code.storeLines]
    generalize insertAfter (.equation k) pc line (s.host k p) = r at hinsert
    cases hinsert with
    | done h => exact (ih h.1 h.2.1).imp fun _ _ hq =>
        ⟨hq.1, List.forall_mem_cons.2 ⟨h.2.2, hq.2⟩⟩
    | refused he hr => exact .refused (by rw [he]; exact he) hr
    | overgrown hbig hr => exact .overgrown (hbig.mono (Nat.le_add_right _ _)) hr

theorem clearProgram_host (hs : s.Ready k) (hp : Empty true p) :
    ∃ q, Draft endBytes.length q ∧
      clearProgram (.equation k) (s.host k p) = .ok () (s.host k q) := by
  have hcapacity : ((p.buffer.truncate 0).append endBytes).capacity = p.buffer.capacity := by
    rw [Buffer.capacity_append, Buffer.capacity_truncate]
    rw [Buffer.capacity_truncate, ← hp.text]
    simpa [Buffer.truncate] using Buffer.length_text_le_capacity p.buffer
  let q : Program :=
    { p with buffer := (p.buffer.truncate 0).append endBytes, cachesClear := true }
  have hset : (s.host k p).setProgram (.equation k) q = s.host k q := by
    rw [← setProgram_host s k p q]
    simp only [q, hcapacity]
    rfl
  have hedited : edited (s.host k q) = .ok () (s.host k q) := edited_host hs
  refine ⟨q, ⟨by simp [q, Buffer.truncate, Buffer.append], rfl, hp.refs⟩, ?_⟩
  unfold clearProgram
  rw [bind_ok (getProgram_of_some (program?_host hs.slot)),
    bind_ok (checkEditable_of_editable (s := s.host k p) fun _ => hs.open_),
    modify_bind, hset]
  exact hedited

theorem storeInto_host (hlabels : labelTable 0 s.programs = .ok s.labels)
    (hk : k < s.equations.length) (hp : Empty true p) {c : Code} {lines : List Instr}
    (hlines : c.resolve = .ok lines) :
    Ends s k (endBytes.length + (lines.map s.storedSize).sum)
      (fun _ q => q.refs = 0 ∧ ∀ line ∈ lines, line.Admitted)
      (c.storeInto (.equation k) (s.host k p)) := by
  have hready : s.openGenerated.Ready k := ⟨hlabels, Nat.succ_ne_zero _, hk⟩
  obtain ⟨q, hq, hclear⟩ := clearProgram_host hready hp
  have hstore := storeLines_host hready lines hq (.inl rfl)
  unfold Code.storeInto
  rw [hlines, bind_ok (Edit.ofExcept_ok lines), withGeneratedEdit,
    show (s.host k p).openGenerated = s.openGenerated.host k p from rfl,
    bind_ok hclear]
  generalize Code.storeLines (.equation k) (-1) lines (s.openGenerated.host k q) = r at hstore
  cases hstore with
  | done h => exact .done h
  | refused he hr => exact .refused he hr
  | overgrown hbig hr => exact .overgrown hbig hr

end

/-! ## Taking a slot and giving it back -/

section

variable {s : Store}

theorem freeSlot_opened (s : Store) : s.opened.freeSlot = s.freeSlot := by
  unfold freeSlot opened
  cases hfree : s.equations.findIdx? (·.isNone) with
  | some k => simp [hfree]
  | none => simp [List.findIdx?_append, hfree]

/-- Giving the slot back leaves it free and takes back the capacity of its buffer, which is all that
    was counted for it. -/
theorem freeEquation_host (hr : p.refs = 0) (hword : inWord s.used = s.used) :
    freeEquation (.equation s.freeSlot) (s.opened.host s.freeSlot p) = .ok () s.opened := by
  have hnone : s.opened.equations.set s.freeSlot none = s.opened.equations := by
    obtain ⟨hlt, hget⟩ := List.getElem?_eq_some_iff.1 s.getElem?_opened
    rw [← hget]
    exact List.set_getElem_self hlt
  have hused : inWord (inWord (s.opened.used + p.buffer.capacity) - p.buffer.capacity)
      = s.opened.used := by
    rw [inWord_sub_inWord, Int.add_sub_cancel]
    exact hword
  refine (freeEquation_eq_ok (program?_host s.freeSlot_lt) hr).trans ?_
  simp only [host, Int.toNat_natCast, List.set_set, hnone, hused]

/-- Whether memory is granted does not depend on the slots. -/
theorem answer_allocate (wanted least held : Nat) (s : Store) (es : List (Option Program)) :
    answer (allocate wanted least held { s with equations := es })
      = answer (allocate wanted least held s) := by
  have hcharge (n : Nat) : ({ s with equations := es } : Store).charge? n
      = (s.charge? n).map ({ · with equations := es }) := by
    unfold charge?
    simp only
    split <;> rfl
  unfold allocate
  rw [hcharge, hcharge]
  cases s.charge? (wanted - held) with
  | some t =>
    simp only [Option.map_some]
    split <;> rfl
  | none => cases s.charge? (least - held) <;> rfl

/-- The answer to a request for a slot: whether memory is granted, and the first free slot. -/
theorem answer_newEquationSlot (s : Store) :
    answer (newEquationSlot s)
      = (answer (allocate (max endBytes.length s.options.initialCapacity.toNat)
          endBytes.length 0 s)).map fun _ => .equation s.freeSlot := by
  rcases allocate_cases (max endBytes.length s.options.initialCapacity.toNat) endBytes.length 0 s
    with ⟨c, hrun, -⟩ | ⟨e, used, hrun, -⟩
  · rw [hrun, freeSlot]
    simp only [newEquationSlot, emptyProgram, newBuffer, bind, EStateM.bind, get, getThe,
      MonadStateOf.get, EStateM.get, pure, EStateM.pure, hrun]
    cases s.equations.findIdx? (·.isNone) <;> rfl
  · rw [hrun]
    simp only [newEquationSlot, emptyProgram, newBuffer, bind, EStateM.bind, get, getThe,
      MonadStateOf.get, EStateM.get, pure, hrun]
    rfl

/-- A free slot more makes no difference to the answer. -/
theorem answer_newEquationSlot_opened (s : Store) :
    answer (newEquationSlot s.opened) = answer (newEquationSlot s) := by
  rw [answer_newEquationSlot, answer_newEquationSlot, freeSlot_opened]
  exact congrArg _ (answer_allocate _ _ _ s _)

end

end Store

/-! ## Compiling -/

/-- The lines that an expression compiles to. -/
def Expr.codeLines (names : NameTable) (e : Expr) : List Instr :=
  (e.program names).resolve.toOption.getD []

theorem Expr.codeLines_of_resolve {names : NameTable} {e : Expr} {code : List Instr}
    (h : (e.program names).resolve = .ok code) : e.codeLines names = code := by
  rw [codeLines, h]
  rfl

/-- A slot can hold the program that the expression compiles to. -/
def Expr.Emits (names : NameTable) (e : Expr) : Prop := ∀ i ∈ e.codeLines names, i.Admitted

instance (names : NameTable) (e : Expr) : Decidable (e.Emits names) :=
  inferInstanceAs (Decidable (∀ i ∈ e.codeLines names, _ → _ ∧ _))

/-- How compiling code of `n` bytes can end: with a program in the first free slot, if a slot can
    hold it (`Q`); with an error that leaves no more than a free slot behind; or crashed, before it
    had a slot or in it. -/
inductive Store.Compiles (s : Store) (n : Nat) (Q : Prop) :
    EStateM.Result Error Store ProgramRef → Prop
  | taken {p : Program} : p.refs = 0 → Q →
      Compiles s n Q (.ok (.equation s.freeSlot) (s.opened.host s.freeSlot p))
  | refused {e : Error} {s' : Store} : e.isCrash = false → s' = s ∨ s' = s.opened →
      Compiles s n Q (.error e s')
  | overgrown {s' : Store} {used : Int} : s.options.Exceeded n →
      (s' = s ∨ ∃ p, s' = s.opened.host s.freeSlot p) →
      Compiles s n Q (.error .outOfBounds { s' with used := used })

/-- The bytes of the program that an expression compiles to in the store, its END included. -/
def Store.compiledSize (s : Store) (names : NameTable) (e : Expr) : Nat :=
  endBytes.length + ((e.codeLines names).map s.storedSize).sum

theorem Expr.compile_accounts {s : Store} (hlabels : labelTable 0 s.programs = .ok s.labels)
    (hword : Store.inWord s.used = s.used) (names : NameTable) (e : Expr) :
    s.Compiles (s.compiledSize names e) (e.Emits names) (e.compile names s) := by
  obtain ⟨code, -, hresolve, -⟩ := e.resolve_program names
  rw [Store.compiledSize, Emits, codeLines_of_resolve hresolve]
  rcases Store.newEquationSlot_cases s with ⟨p, hrun, hp, -⟩ | ⟨cause, used, hrun, hdenied⟩
  · have hstore := Store.storeInto_host (s := s.opened) hlabels s.freeSlot_lt hp hresolve
    simp only [compile, bind, EStateM.bind, hrun, compileInto]
    generalize (e.program names).storeInto (.equation s.freeSlot) (s.opened.host s.freeSlot p) = r
      at hstore
    cases hstore with
    | done h => exact .taken h.1 h.2
    | refused he hr =>
      -- What is in the slot is a part of the code, and all of its buffer is taken back.
      simp only [he, Bool.false_eq_true, if_false, Store.freeEquation_host hr hword]
      exact .refused he (.inr rfl)
    | @overgrown q used hbig _ => exact .overgrown hbig (.inr ⟨q, rfl⟩)
  · simp only [compile, bind, EStateM.bind, hrun]
    cases hcrash : cause.isCrash with
    | false =>
      rw [Store.refuses_newEquationSlot _ _ _ hrun hcrash]
      exact .refused hcrash (.inl rfl)
    | true =>
      obtain ⟨rfl, hbig⟩ := hdenied.exceeded hcrash
      exact .overgrown (hbig.mono (Nat.le_add_right _ _)) (.inl rfl)

/-! ## Sessions -/

namespace Session

/-- The second session is the first but for the memory in use and the programs in some slots. -/
structure SameBut (own : Nat → Prop) (s s' : Session) : Prop where
  rest : s' = { s with
    store := { s.store with used := s'.store.used, equations := s'.store.equations } }
  slots : ∀ j, ¬ own j → s'.store.slot? j = s.store.slot? j

/-- How compiling a program of `n` bytes can end in a session. An error leaves all slots, the
    memory in use and the slot that is next as they were. A crash needs a program, or a least
    capacity, that is larger than any buffer; it may leave a part of the program in a free slot. -/
inductive Compiles (s : Session) (n : Nat) {α : Type} (ref : α → ProgramRef) :
    EStateM.Result Error Session α → Prop
  | known {a : α} : Compiles s n ref (.ok a s)
  | taken {a : α} {k : Nat} {p : Program} {s' : Session} : ref a = .equation k →
      s.store.slot? k = none → s'.store.slot? k = some p → p.refs = 0 →
      s'.store.used = Store.inWord (s.store.used + p.buffer.capacity) → s.SameBut (· = k) s' →
      Compiles s n ref (.ok a s')
  | refused {e : Error} {s' : Session} : e.isCrash = false → s.SameBut (fun _ => False) s' →
      s'.store.used = s.store.used →
      Operation.answer (Store.newEquationSlot s'.store)
        = Operation.answer (Store.newEquationSlot s.store) →
      Compiles s n ref (.error e s')
  | overgrown {k : Nat} {s' : Session} : s.store.options.Exceeded n → s.store.slot? k = none →
      s.SameBut (· = k) s' → Compiles s n ref (.error .outOfBounds s')

section

variable {s : Session} {n : Nat} {α : Type} {ref : α → ProgramRef}

/-- The programs in slots other than the first free one are not touched by what is put there. -/
theorem SameBut.of_host (p : Program) (used : Int) : s.SameBut (· = s.store.freeSlot)
    { s with store := { s.store.opened.host s.store.freeSlot p with used := used } } :=
  ⟨rfl, fun j hj => (Store.slot?_host_ne hj).trans (s.store.slot?_opened j)⟩

theorem Compiles.of_error {e : Error} (he : e.isCrash = false) : s.Compiles n ref (.error e s) :=
  .refused he ⟨rfl, fun _ _ => rfl⟩ rfl rfl

/-- An operation that compiles an expression and does nothing else to the store. -/
theorem compiles_of_store {x : Edit α} {compile : Edit ProgramRef} {f : ProgramRef → α}
    (hf : ∀ r, ref (f r) = r) (hx : x s.store = (compile >>= fun r => pure (f r)) s.store)
    {Q : Prop} (h : s.store.Compiles n Q (compile s.store)) : s.Compiles n ref (edit x s) := by
  generalize hrun : compile s.store = r at h
  cases h with
  | @taken p hr _ =>
    rw [bind_ok hrun] at hx
    rw [edit_of_ok hx rfl]
    exact .taken (hf _) s.store.slot?_freeSlot (Store.program?_host s.store.freeSlot_lt) hr rfl
      (.of_host p _)
  | @refused e store he hstore =>
    rw [bind_error hrun] at hx
    -- No edit was counted, so no pending return is dropped.
    rcases hstore with rfl | rfl <;> rw [edit_of_error hx rfl]
    · exact .of_error he
    · exact .refused he ⟨rfl, fun j _ => s.store.slot?_opened j⟩ rfl
        s.store.answer_newEquationSlot_opened
  | @overgrown store used hbig hstore =>
    rw [bind_error hrun] at hx
    rcases hstore with rfl | ⟨p, rfl⟩ <;> rw [edit_of_error hx rfl]
    · exact .overgrown hbig s.store.slot?_freeSlot ⟨rfl, fun _ _ => rfl⟩
    · exact .overgrown hbig s.store.slot?_freeSlot (.of_host p used)

end

end Session

/-- The bytes of the program that solving an equation for a variable compiles. -/
def Equation.solvedSize (s : Store) (name : Bytes) (e : Equation) : Nat :=
  match e.tree.isolate name with
  | .ok tree => s.compiledSize e.names tree
  | .error _ => 0

/-- Compiling an equation and solving it for a variable are atomic: each takes one free slot and
    changes nothing else in the session, whatever is running there, or fails and leaves the session
    as it was but for free slots at the end of memory. -/
theorem Equation.compile_atomic {s : Session}
    (hlabels : labelTable 0 s.store.programs = .ok s.store.labels)
    (hword : Store.inWord s.store.used = s.store.used) (e : Equation) :
    (∀ names : NameTable, s.Compiles (s.store.compiledSize names e.tree) Equation.program
      (Session.edit (e.compile names) s)) ∧
    ∀ name : Bytes, s.Compiles (e.solvedSize s.store name) Prod.fst
      (Session.edit (e.solveFor name) s) := by
  constructor
  · intro names
    by_cases hprogram : e.program = .none
    · refine compiles_of_store (f := fun r => { e with names := names, program := r })
        (fun _ => rfl) ?_ (e.tree.compile_accounts hlabels hword names)
      rw [compile, if_neg (by simp [hprogram])]
    · have hrun : e.compile names s.store = .ok e s.store := by
        rw [compile, if_pos hprogram]
        rfl
      rw [edit_of_ok hrun rfl]
      exact .known
  · intro name
    by_cases hprogram : e.program = .none
    · have hrun : e.solveFor name s.store = .error (.notCompiled e.source) s.store := by
        rw [solveFor, if_pos hprogram]
        rfl
      rw [edit_of_error hrun rfl]
      exact .of_error rfl
    cases hfind : e.solutions.find? name with
    | some ref =>
      have hrun : e.solveFor name s.store = .ok (ref, e) s.store := by
        rw [solveFor, if_neg hprogram, hfind]
        rfl
      rw [edit_of_ok hrun rfl]
      exact .known
    | none =>
      unfold solvedSize
      cases htree : e.tree.isolate name with
      | error cause =>
        have hrun : e.solveFor name s.store = .error (.isolation cause) s.store := by
          rw [solveFor, if_neg hprogram, hfind, htree]
          rfl
        rw [edit_of_error hrun rfl]
        exact .of_error rfl
      | ok tree =>
        refine compiles_of_store
          (f := fun r => (r, { e with solutions := e.solutions.put name r })) (fun _ => rfl) ?_
          (tree.compile_accounts hlabels hword e.names)
        rw [solveFor, if_neg hprogram, hfind, htree]
        rfl

/-- A session with little memory, in the middle of a call. -/
def Session.cramped : Session where
  store := {
    options := { memoryLimit := 12, initialCapacity := 4 }
    programs := [{ buffer := ⟨endBytes, [], 2⟩, refs := 1 }]
    labels := [⟨none, 0, 0⟩]
    used := 4 }
  calls := { slots := [.pending (.user 0) 0 false false], level := 1, max := 1024 }
  current := .user 0
  running := true

/-- An equation whose program does not fit there. -/
def Equation.aPlusB : Equation where
  name := []
  source := utf8 "A+B"
  compat := false
  tree := .binary 1 .add (.var 0 (utf8 "A")) (.var 2 (utf8 "B"))

theorem Equation.compile_atomic_cramped :
    ∃ cause s', Session.edit (aPlusB.compile []) Session.cramped = .error cause s' ∧
      Session.cramped.SameBut (fun _ => False) s' ∧ s'.store.used = 4 ∧
      Operation.answer (Store.newEquationSlot s'.store)
        = Operation.answer (Store.newEquationSlot Session.cramped.store) := by
  have hcompiles := (@compile_atomic cramped rfl (by decide) aPlusB).1 []
  obtain ⟨cause, s', hrun, hcause⟩ : ∃ cause s',
      edit (aPlusB.compile []) cramped = .error cause s' ∧
        cause.isCrash = false := by
    refine ⟨_, _, rfl, ?_⟩
    rfl
  rw [hrun] at hcompiles
  cases hcompiles with
  | refused _ hsame hused hanswer => exact ⟨cause, s', hrun, hsame, hused, hanswer⟩
  | overgrown => exact absurd hcause (by decide)

end Keystroke
