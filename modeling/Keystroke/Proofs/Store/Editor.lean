import Keystroke.Proofs.Store.Request

set_option autoImplicit false

/-! # The store as a line editor

An `Editor` keeps lists of lines and knows nothing of bytes, offsets, labels and memory. A store
that is only edited shows the lines that its programs read back as (`Store.view`), and every
request changes them as the editor would (`Store.Simulates`): a request that succeeds is a step of
the editor with the same answer, and one that fails changes no line and is refused by the editor
too, unless memory ran out. -/

namespace Keystroke

open Operation List Option Store

variable {i : Instr} {g : Bool} {e : Error} {place : Nat}
variable {p : Program} {ls : List Line} {n : Nat} {line : Instr} {pc : Int} {k : Option Nat}

/-! ## The editor -/

/-- Lists of lines: the programs of the user, the slots, and the number of open brackets in which
    slots may be edited. -/
structure Editor where
  programs : List (List Instr)
  equations : List (Option (List Instr))
  unlocked : Nat
deriving DecidableEq

namespace Editor

/-- What can be asked of an editor. Lines are counted from zero, the END included; no number stands
    for the top. -/
inductive Op where
  | newProgram
  | newSlot
  | freeSlot (ref : ProgramRef)
  | insert (ref : ProgramRef) (k : Option Nat) (line : Instr)
  | insertAfter (ref : ProgramRef) (k : Option Nat) (line : Instr)
  | delete (ref : ProgramRef) (k : Option Nat)
  | clear (ref : ProgramRef)
  | unlock
  | lock
  | keep
deriving DecidableEq

/-- What an editor answers: nothing, a program, or a line of one, the top if there is no number. -/
inductive Answer where
  | done
  | program (ref : ProgramRef)
  | line (ref : ProgramRef) (k : Option Nat)
deriving DecidableEq

/-- The lines of a program, its END not among them. -/
def lines? (e : Editor) : ProgramRef → Option (List Instr)
  | .user i => at? e.programs i
  | .equation i => (at? e.equations i).join
  | _ => none

/-- Replaces the lines of a program. -/
def setLines (e : Editor) (ref : ProgramRef) (lines : List Instr) : Editor :=
  match ref with
  | .user i => { e with programs := e.programs.set i.toNat lines }
  | .equation i => { e with equations := e.equations.set i.toNat (some lines) }
  | _ => e

/-- The lines of a program that may be edited. -/
def editable? (e : Editor) (ref : ProgramRef) : Option (List Instr) :=
  match ref with
  | .equation _ => if e.unlocked = 0 then none else e.lines? ref
  | _ => e.lines? ref

/-- Puts two programs in the place of one of the user; the second is the current program then. -/
def cut? (e : Editor) (ref : ProgramRef) (front back : List Instr) : Option (Editor × ProgramRef) :=
  match ref with
  | .user i =>
    let programs := e.programs.take i.toNat ++ front :: back :: e.programs.drop (i.toNat + 1)
    some ({ e with programs := programs }, .user (i + 1))
  | _ => none

/-- Continues a program of the user by the next one, unless it is the last. -/
def join? (e : Editor) (ref : ProgramRef) (lines : List Instr) : Option Editor :=
  match ref with
  | .user i =>
    e.programs[i.toNat + 1]?.map fun next =>
      let programs := e.programs.take i.toNat ++ (lines ++ next) :: e.programs.drop (i.toNat + 2)
      { e with programs := programs }
  | _ => none

/-- Puts a line in front of the one with the given number. An END cuts the lines of a program in
    two. -/
def put (e : Editor) (ref : ProgramRef) (place : Nat) (line : Instr) :
    Option (Editor × ProgramRef) := do
  let lines ← e.editable? ref
  if line.command = .endLine then e.cut? ref (lines.take place) (lines.drop place)
  else some (e.setLines ref (lines.take place ++ line.stored :: lines.drop place), ref)

/-- The place behind a line: behind the END there is none, and the place is in front of it. -/
def behind (lines : List Instr) : Option Nat → Nat
  | none => 0
  | some k => min (k + 1) lines.length

/-- Takes out the line with the given number. Without its END a program is continued by the next
    one; the last END and those of the slots stay. -/
def remove (e : Editor) (ref : ProgramRef) (k : Nat) : Option Editor := do
  let lines ← e.editable? ref
  if k < lines.length then some (e.setLines ref (lines.eraseIdx k))
  else e.join? ref lines

/-- What becomes of the lines, and the answer; none if the operation is refused. -/
def apply (e : Editor) : Op → Option (Editor × Answer)
  | .newProgram =>
    if e.programs.getLast? = some [] then some (e, .program (.user (e.programs.length - 1 : Nat)))
    else some ({ e with programs := e.programs ++ [[]] }, .program (.user e.programs.length))
  | .newSlot =>
    match e.equations.findIdx? (·.isNone) with
    | some i => some ({ e with equations := e.equations.set i (some []) }, .program (.equation i))
    | none => some ({ e with equations := e.equations ++ [some []] },
        .program (.equation e.equations.length))
  | .freeSlot ref =>
    match ref with
    | .equation i => do
      let _ ← e.lines? ref
      some ({ e with equations := e.equations.set i.toNat none }, .done)
    | _ => none
  | .insert ref k line => do
    let (e, ref) ← e.put ref (k.getD 0) line
    some (e, .program ref)
  | .insertAfter ref k line => do
    let place := behind (← e.lines? ref) k
    let (e, current) ← e.put ref place line
    some (e, .line current (if line.command = .endLine then none else some place))
  | .delete ref k => do some (← e.remove ref (← k), .done)
  | .clear ref => do
    let _ ← e.editable? ref
    some (e.setLines ref [], .done)
  | .unlock => some ({ e with unlocked := e.unlocked + 1 }, .done)
  | .lock => some ({ e with unlocked := e.unlocked - 1 }, .done)
  | .keep => some (e, .done)

/-- What becomes of the lines by steps one after the other. -/
def run (e : Editor) : List Op → Option Editor
  | [] => some e
  | op :: ops => (e.apply op).bind fun (e, _) => e.run ops

theorem run_append (e : Editor) (ops : List Op) (op : Op) :
    e.run (ops ++ [op]) = (e.run ops).bind fun e => (e.apply op).map Prod.fst := by
  induction ops generalizing e with
  | nil =>
    rw [nil_append, run, run, bind_some]
    cases e.apply op <;> rfl
  | cons op' ops ih =>
    rw [cons_append, run, run]
    cases h : e.apply op' with
    | none => rfl
    | some result => exact ih result.1

/-- The lines of a new store: one program without lines, or none at all. -/
def start (hasProgram : Bool) : Editor := ⟨if hasProgram then [[]] else [], [], 0⟩

end Editor

/-! ## What a store shows -/

/-- The lines that a program reads back as, but for its END. -/
def Program.view (p : Program) : List Instr :=
  ((decodeLines p.buffer.text).toOption.getD []).dropLast

/-- The lines of all programs. -/
def Store.view (s : Store) : Editor where
  programs := s.programs.map Program.view
  equations := s.equations.map (·.map Program.view)
  unlocked := s.generatedEdits

/-- Ends and well-formed lines are put in, and no targets are looked up. -/
def editing : Rules where
  line i := i.command = .endLine ∨ i.WellFormed
  lookups := False

/-- The step of the editor that a request stands for. -/
inductive Request.Means (s : Store) : Request → Editor.Op → Prop
  | newProgram : Means s .newProgram .newProgram
  | newEquationSlot : Means s .newEquationSlot .newSlot
  | freeEquation (ref : ProgramRef) : Means s (.freeEquation ref) (.freeSlot ref)
  | insert {ref : ProgramRef} {pc : Int} {k : Option Nat} {line : Instr} (hat : s.At ref pc k)
      (hline : editing.line line) : Means s (.insert ref pc line) (.insert ref k line)
  | insertAfter {ref : ProgramRef} {pc : Int} {k : Option Nat} {line : Instr} (hat : s.At ref pc k)
      (hline : editing.line line) : Means s (.insertAfter ref pc line) (.insertAfter ref k line)
  | delete {ref : ProgramRef} {pc : Int} {k : Option Nat} (hat : s.At ref pc k) :
      Means s (.delete ref pc) (.delete ref k)
  | clearProgram (ref : ProgramRef) : Means s (.clearProgram ref) (.clear ref)
  | beginBulkLoad : Means s .beginBulkLoad .keep
  | endBulkLoad : Means s .endBulkLoad .keep
  | openGenerated : Means s .openGenerated .unlock
  | closeGenerated : Means s .closeGenerated .lock
  | invalidate (ref : ProgramRef) (force : Bool) : Means s (.invalidate ref force) .keep

/-- The store replied what the editor answers. Lines are named by their offsets. -/
def Reply.Matches (s : Store) : Reply → Editor.Answer → Prop
  | .done, .done => True
  | .program ref, .program ref' => ref = ref'
  | .line ref pc, .line ref' k => ref = ref' ∧ s.At ref pc k
  | _, _ => False

/-- The bytes that a line to put in takes. -/
def Request.codeSize : Request → Nat
  | .insert _ _ line | .insertAfter _ _ line => (line.encode.toOption.getD []).length
  | _ => 0

/-- A bound on the memory that a request may ask for at once. -/
def Store.demand (s : Store) (r : Request) : Nat :=
  2 * ((s.programs.map (·.buffer.capacity)).sum +
    (s.equations.map (·.elim 0 (·.buffer.capacity))).sum) +
  s.options.initialCapacity.toNat + endBytes.length + r.codeSize

/-- The line to put in names an entry of the label table that does not exist. -/
def Request.Unresolved (s : Store) : Request → Prop
  | .insert _ _ line | .insertAfter _ _ line => s.resolved? line = none
  | _ => False

/-! ## Programs that are only edited -/

/-- A line as it was written. -/
def Line.Fresh (l : Line) : Prop := ∃ i : Instr, i.WellFormed ∧ i.encode = .ok l.bytes

/-- A program of lines as they were written. -/
def Program.Edited (p : Program) : Prop := ∃ ls, p.Holds ls ∧ ∀ l ∈ ls, l.Fresh

theorem Instr.WellFormed.kind_ne (h : i.WellFormed) : i.operand.kind ≠ .labelIndex := by
  intro hk
  obtain ⟨bytes, hb⟩ := h.storable
  obtain ⟨-, operand, ho, -⟩ := encode_eq_ok_iff.1 hb
  have hnum : i.command ≠ .number := fun hn => by
    rw [h.real hn] at hk
    exact absurd hk (by simp)
  rw [normalize, if_neg (by simp [hk]), if_pos hnum] at ho
  rw [operandBytes, hk] at ho
  exact absurd ho (by simp)

theorem Instr.WellFormed.exists_line {code : Bytes} (h : i.WellFormed)
    (hcode : i.encode = .ok code) :
    ∃ l : Line, l.bytes = code ∧ l.header.command = i.command ∧ l.instr = i.stored := by
  obtain ⟨l, hb, hh, hi⟩ := exists_line_of_encode hcode h.spelling
  exact ⟨l, hb, by rw [hh]; rfl, by rw [hi, readBack_of_wellFormed h]⟩

namespace Line.Fresh

variable {l : Line}

theorem target (h : l.Fresh) : l.target = targetUnknown := by
  obtain ⟨i, hi, hcode⟩ := h
  obtain ⟨l', hb, -, hinstr⟩ := Instr.exists_line_of_encode hcode hi.spelling
  obtain rfl : l' = l := Line.ext hb
  rw [Line.target, hinstr, Instr.target_readBack]

theorem clearAll (h : ∀ l ∈ ls, l.Fresh) : clearAll ls = ls :=
  clearAll_of_unknown fun l hl => (h l hl).target

end Line.Fresh

theorem Program.Edited.fresh (h : p.Edited) (hl : p.Holds ls) : ∀ l ∈ ls, l.Fresh := by
  obtain ⟨ms, hms, hfresh⟩ := h
  rwa [hl.unique hms]

theorem Program.Settled.holds_of_unknown {p' : Program} (h : p.Settled n ls p')
    (hunknown : ∀ l ∈ ls, l.target = targetUnknown) : p'.Holds ls := by
  have hl := h.holds
  rwa [clearAll_of_unknown hunknown, ite_self] at hl

theorem Program.Settled.holds_of_fresh {p' : Program} (h : p.Settled n ls p')
    (hfresh : ∀ l ∈ ls, l.Fresh) : p'.Holds ls :=
  h.holds_of_unknown fun l hl => (hfresh l hl).target

theorem Store.Cleared.holds_of_fresh {r : Nat} (h : Store.Cleared ls r g p)
    (hfresh : ∀ l ∈ ls, l.Fresh) : p.Holds ls := by
  have hl := h.holds
  rwa [Line.Fresh.clearAll hfresh] at hl

theorem stable_edited (strict : Bool) : Stable editing strict fun _ p => p.Edited where
  holds h := by
    obtain ⟨ls, hls, -⟩ := h
    exact ⟨ls, hls⟩
  resolved {s line line'} h hline := by
    unfold resolved? at hline
    split at hline
    · next hk =>
      obtain ⟨name, -, rfl⟩ := map_eq_some_iff.1 hline
      rcases h with h | h
      · exact Or.inl h
      · exact absurd hk h.kind_ne
    · obtain rfl := some.inj hline
      exact h
  empty h := ⟨[], Program.holds_nil h.text, by simp⟩
  spelled h hnumber := (h.resolve_left (by rw [hnumber]; decide)).spelling hnumber
  inserted {n p p' front back line l} h hl hline hend hwrites hp' := by
    have hfresh := forall_mem_put ⟨line, hline.resolve_left hend, hwrites.code⟩ (h.fresh hl)
    exact ⟨_, hp'.holds_of_fresh hfresh, hfresh⟩
  deleted {n p p' front back l} h hl hp' := by
    have hfresh := forall_mem_cut (h.fresh hl)
    exact ⟨_, hp'.holds_of_fresh hfresh, hfresh⟩
  cleared {n r g p' ls} h hp' := by
    have hfresh : ∀ l ∈ ls, l.Fresh := by
      intro l hl
      obtain ⟨m, q, ms, hq, hms, hmem⟩ := h l hl
      exact hq.fresh hms l hmem
    exact ⟨_, hp'.holds_of_fresh hfresh, hfresh⟩
  opened h := h
  lookedUp hrule := absurd hrule (by simp [editing])

/-! ## The lines that edits leave -/

theorem Program.Holds.view (h : p.Holds ls) : p.view = ls.map Line.instr := by
  rw [Program.view, h.text, decodeLines_textOf]
  simp [Except.toOption]

namespace Store

variable {s s' t : Store} {ref : ProgramRef} {p' : Program} {front back : List Line}

theorem view_of_agree (h : s.Agree t) : s.view = t.view := by
  simp only [view, h.programs, h.equations, h.generatedEdits]

theorem lines?_view (s : Store) (ref : ProgramRef) :
    s.view.lines? ref = (s.program? ref).map Program.view := by
  cases ref with
  | user i =>
    simp only [Editor.lines?, program?, at?, view]
    split
    · rfl
    · simp
  | equation i =>
    simp only [Editor.lines?, program?, at?, view]
    split
    · rfl
    · cases h : s.equations[i.toNat]? with
      | none => simp [h]
      | some slot => cases slot <;> simp [h]
  | _ => rfl

theorem view_setProgram (s : Store) (ref : ProgramRef) (p : Program) :
    (s.setProgram ref p).view = s.view.setLines ref p.view := by
  cases ref <;> simp [setProgram, view, Editor.setLines, map_set]

section

variable {Q : Nat → Program → Prop}

theorem editable?_of_editable (hs : s.Sound Q) (hp : s.program? ref = some p) (he : s.Editable p) :
    s.view.editable? ref = some p.view := by
  have hlines : s.view.lines? ref = some p.view := by rw [lines?_view, hp]; rfl
  unfold Editor.editable?
  split
  · next i =>
    have h0 : s.view.unlocked ≠ 0 := he ((hs.generated hp).2 ⟨i, rfl⟩)
    rw [if_neg h0, hlines]
  · exact hlines

theorem editable?_of_not_editable (hs : s.Sound Q) (hp : s.program? ref = some p)
    (he : ¬ s.Editable p) : s.view.editable? ref = none := by
  simp only [Editable, not_forall, not_not] at he
  obtain ⟨hg, h0⟩ := he
  obtain ⟨i, rfl⟩ := (hs.generated hp).1 hg
  exact if_pos h0

theorem editable?_of_none (hp : s.program? ref = none) : s.view.editable? ref = none := by
  have hlines : s.view.lines? ref = none := by rw [lines?_view, hp]; rfl
  unfold Editor.editable?
  split
  · rw [hlines, ite_self]
  · exact hlines

end

/-! ### Memory -/

theorem MemoryFault.mono {m : Nat} (h : s.MemoryFault n e) (hnm : n ≤ m) : s.MemoryFault m e :=
  h.imp_right fun h => ⟨h.1, by omega⟩

theorem demand_eq (s : Store) (r : Request) :
    s.demand r = appetite s.options s.total (endBytes.length + r.codeSize) := by
  simp only [demand, appetite, total]
  omega

theorem Denied.memoryFault {held need : Nat} {r : Request} (h : s.Denied held need e)
    (hheld : held ≤ s.total) (hneed : need ≤ 2 * s.total + endBytes.length + r.codeSize) :
    s.MemoryFault (s.demand r) e := by
  refine h.fault.mono ?_
  rw [demand_eq, appetite]
  omega

theorem memoryFault_of_far (hp : s.program? ref = some p) (hl : p.Holds ls)
    (hle : pc ≤ (textOf ls).length) (hfar : maxOffset < pc) (r : Request) :
    s.MemoryFault (s.demand r) .outOfBounds :=
  .inr ⟨rfl, by rw [demand_eq]; exact maxCapacity_lt_appetite hp hl hle hfar _⟩

/-! ### Lines -/

theorem put_end (hs : s.Sound fun _ p => p.Edited) (hp : s.program? ref = some p)
    (he : s.Editable p) (hend : line.command = .endLine) :
    s.view.put ref place line = s.view.cut? ref (p.view.take place) (p.view.drop place) := by
  simp only [Editor.put, editable?_of_editable hs hp he, bind_eq_bind, bind_some]
  rw [if_pos hend]

/-! ## Requests and steps of the editor -/

/-- A request does what a step of the editor does: the lines and the answer are the same when it
    succeeds, and the lines are the same when it fails, which it does when the editor refuses, when
    memory runs out, or when a label does not exist. -/
structure Simulates (s : Store) (r : Request) (op : Editor.Op) : Prop where
  ok {reply : Reply} {s' : Store} (h : r.run s = .ok reply s') :
    ∃ answer, s.view.apply op = some (s'.view, answer) ∧ reply.Matches s' answer
  error {e : Error} {s' : Store} (h : r.run s = .error e s') :
    s'.view = s.view ∧
      (s.view.apply op = none ∨ s.MemoryFault (s.demand r) e ∨ r.Unresolved s)

namespace Simulates

variable {r : Request} {op : Editor.Op}

theorem of_ok {reply : Reply} {answer : Editor.Answer} (h : r.run s = .ok reply s')
    (happly : s.view.apply op = some (s'.view, answer)) (hm : reply.Matches s' answer) :
    Simulates s r op := by
  constructor
  · intro reply' s'' h'
    obtain ⟨rfl, rfl⟩ := EStateM.Result.ok.inj (h.symm.trans h')
    exact ⟨answer, happly, hm⟩
  · intro e s'' h'
    exact absurd (h.symm.trans h') (by simp)

theorem of_error (h : r.run s = .error e s') (hs' : s.Agree s')
    (hcause : s.view.apply op = none ∨ s.MemoryFault (s.demand r) e ∨ r.Unresolved s) :
    Simulates s r op := by
  constructor
  · intro reply s'' h'
    exact absurd (h.symm.trans h') (by simp)
  · intro e' s'' h'
    obtain ⟨rfl, rfl⟩ := EStateM.Result.error.inj (h.symm.trans h')
    exact ⟨(view_of_agree hs').symm, hcause⟩

theorem refused (h : r.run s = .error e s) (happly : s.view.apply op = none) : Simulates s r op :=
  .of_error h (Agree.refl s) (.inl happly)

theorem starved {used : Int} (h : r.run s = .error e { s with used := used })
    (hfault : s.MemoryFault (s.demand r) e) : Simulates s r op :=
  .of_error h (agree_used s used) (.inr (.inl hfault))

end Simulates

theorem matches_done : Reply.done.Matches s' .done := trivial

theorem matches_program (ref : ProgramRef) : (Reply.program ref).Matches s' (.program ref) := rfl

/-- A line goes in as the editor puts it in. -/
theorem simulates_of_inserted {r : Request} {op : Editor.Op} {reply : ProgramRef → Reply}
    {a : ProgramRef → Editor.Answer} (hs : s.Sound fun _ p => p.Edited)
    (hp : s.program? ref = some p) (hl : p.Holds (front ++ back)) (hline : editing.line line)
    (h : Inserted s ref p front back line reply (r.run s))
    (hsize : r.codeSize = (line.encode.toOption.getD []).length)
    (hunresolved : s.resolved? line = none → r.Unresolved s)
    (happly : s.view.apply op = (do
      let (e, current) ← s.view.put ref front.length line
      some (e, a current)))
    (hstays : ∀ s' p' l, line.command ≠ .endLine → s'.program? ref = some p' →
      p'.Holds (front ++ l :: back) → (reply ref).Matches s' (a ref))
    (hcut : ∀ s' current, line.command = .endLine → current ≠ ref →
      (reply current).Matches s' (a current)) : Simulates s r op := by
  have hfresh := ((hs.program? hp).1).fresh hl
  have hlen : front.length = (front.map Line.instr).length := by simp
  have hwf (hend : line.command ≠ .endLine) : line.WellFormed := hline.resolve_left hend
  generalize hrun : r.run s = res at h
  cases h with
  | @line line' l p' s' hres hend hwrites hs' hp' _ _ _ he =>
    rw [(resolved?_same hres).1] at hend
    replace hwf := hwf hend
    rw [resolved?, if_neg hwf.kind_ne] at hres
    obtain rfl := some.inj hres
    have hl' := hp'.holds_of_fresh (forall_mem_put ⟨line, hwf, hwrites.code⟩ hfresh)
    refine .of_ok hrun ?_ (hstays s' p' l hend ?_ hl')
    · simp only [happly, Editor.put, editable?_of_editable hs hp he, bind_eq_bind, bind_some]
      rw [if_neg hend, view_of_agree hs', view_setProgram, hl'.view, hl.view]
      simp only [map_append, map_cons, hlen, take_left, drop_left,
        hwrites.instr, Instr.readBack_of_wellFormed hwf]
      rfl
    · rw [hs'.program?, program?_setProgram_self p' hp]
  | @split pre post q r s' hend hps href hs' hq hr _ _ _ _ he =>
    subst href
    have hqv := (hq.holds_of_fresh fun l h => hfresh l (mem_append_left _ h)).view
    have hrv := (hr.holds_of_fresh fun l h => hfresh l (mem_append_right _ h)).view
    refine .of_ok hrun ?_ (hcut s' _ hend (by simp))
    rw [happly, put_end hs hp he hend, view_of_agree hs', hl.view]
    simp only [Editor.cut?, view, hps, map_append, map_cons, hlen, take_left,
      drop_left, hqv, hrv, Int.toNat_natCast]
    simp [drop_append]
  | refused _ _ hcause =>
    refine .of_error hrun (Agree.refl s) ?_
    rw [happly]
    by_cases he : s.Editable p
    swap
    · exact .inl (by simp [Editor.put, editable?_of_not_editable hs hp he])
    rcases hcause with hlocked | hres | ⟨hend, hcode⟩ | ⟨hend, href⟩
    · exact absurd he hlocked
    · exact .inr (.inr (hunresolved hres))
    · obtain ⟨code, hok⟩ := (hwf hend).storable
      exact absurd hok (hcode code line (by rw [resolved?, if_neg (hwf hend).kind_ne]))
    · left
      rw [put_end hs hp he hend]
      cases ref with
      | user i => exact absurd rfl (href i)
      | _ => rfl
  | denied hasks hdenied =>
    have hlength := length_text_le_total hp
    obtain ⟨hheld, hneed⟩ := hasks.le hl
    refine .starved hrun (hdenied.memoryFault (hheld.trans (capacity_le_total hp)) ?_)
    split at hneed
    · omega
    · next hend =>
      obtain ⟨code, hok⟩ := (hwf hend).storable
      rw [storedSize_of_kind (hwf hend).kind_ne, Instr.size, hok] at hneed
      rw [hsize, hok]
      simp only [Except.toOption, getD_some] at hneed ⊢
      omega
  | unaddressable hfar =>
    exact .of_error hrun (Agree.refl s)
      (.inr (.inl (memoryFault_of_far hp hl (by simp) hfar r)))

theorem simulates_insert (hs : s.Sound fun _ p => p.Edited) (hat : s.At ref pc k)
    (hline : editing.line line) : Simulates s (.insert ref pc line) (.insert ref k line) := by
  cases hp : s.program? ref with
  | none =>
    exact .refused (bind_error (insert_of_none hp))
      (by simp [Editor.apply, Editor.put, editable?_of_none hp])
  | some p =>
    obtain ⟨ls, hls, -⟩ := (hs.program? hp).1
    obtain ⟨front, back, rfl, hplace, hlen⟩ := exists_place hp hls hat
    have hinserted := inserted_of_place hp hls hplace ((stable_edited false).spelled hline)
      fun _ _ _ => (hs.legible (stable_edited false)).programs
    exact simulates_of_inserted hs hp hls hline (hinserted.map Reply.program) rfl (fun h => h)
      (by rw [hlen]; rfl) (fun _ _ _ _ _ _ => matches_program ref)
      fun _ current _ _ => matches_program current

theorem simulates_insertAfter (hs : s.Sound fun _ p => p.Edited) (hat : s.At ref pc k)
    (hline : editing.line line) :
    Simulates s (.insertAfter ref pc line) (.insertAfter ref k line) := by
  cases hp : s.program? ref with
  | none =>
    exact .refused (bind_error (insertAfter_of_none hp)) (by simp [Editor.apply, lines?_view, hp])
  | some p =>
    obtain ⟨ls, hls, -⟩ := (hs.program? hp).1
    obtain ⟨front, back, rfl, hpc, hlen⟩ := exists_behind hp hls hat
    have hbehind : Editor.behind p.view k = front.length := by
      rw [hlen]
      cases k <;> simp [Editor.behind, hls.view]
    have hinserted := inserted_behind hp hls hpc ((stable_edited false).spelled hline)
      fun _ _ _ => (hs.legible (stable_edited false)).programs
    refine simulates_of_inserted (a := fun current =>
      .line current (if line.command = .endLine then none else some front.length)) hs hp hls hline
      (hinserted.map fun r => Reply.line r.1 r.2) rfl (fun h => h) ?_ ?_ ?_
    · simp only [Editor.apply, lines?_view, hp, map_some, bind_eq_bind, bind_some, hbehind]
    · intro s' p' l hend hp' hl'
      rw [if_neg hend, placed_self]
      refine ⟨rfl, p', (textOf front).length, hp', ?_, rfl⟩
      rw [hl'.text]
      exact lineAt_textOf.2 ⟨front, l, back ++ [Line.endLine], by simp, rfl, rfl⟩
    · intro s' current hend hne
      rw [if_pos hend, placed_end hend hne]
      exact ⟨rfl, rfl⟩

/-! ### Taking lines out -/

section

variable (hs : s.Sound fun _ p => p.Edited)

include hs

theorem apply_delete (hp : s.program? ref = some p)
    (he : s.Editable p) (k : Nat) :
    s.view.apply (.delete ref (some k)) =
      (if k < p.view.length then some (s.view.setLines ref (p.view.eraseIdx k))
        else s.view.join? ref p.view).map (·, .done) := by
  simp only [Editor.apply, Editor.remove, editable?_of_editable hs hp he, bind_eq_bind, bind_some]
  split <;> simp [map_eq_bind]

theorem simulates_delete_end (hp : s.program? ref = some p)
    (he : s.Editable p) (hl : p.Holds ls) :
    Simulates s (.delete ref (textOf ls).length) (.delete ref (some ls.length)) := by
  have happly := apply_delete hs hp he ls.length
  rw [if_neg (by simp [hl.view])] at happly
  have hdelete : delete ref (textOf ls).length s = mergeNext ref p s :=
    delete_at_line hp he hl.textEnd
  rcases next_cases hp with ⟨pre, q, post, rfl, hps⟩ | hlast
  · have hps' : s.programs = (pre ++ [p]) ++ q :: post := by simpa using hps
    obtain ⟨back, hback, hfreshBack⟩ := (hs.program? (program?_of_split hps')).1
    have hfresh := ((hs.program? hp).1).fresh hl
    rcases mergeNext_cases hps hl hback (hs.legible (stable_edited false)).programs with
      ⟨r, s', hrun, hs', hr, -⟩ | ⟨e, used, hrun, hdenied⟩
    · have hrv := (hr.holds_of_fresh fun l h =>
        (mem_append.1 h).elim (hfresh l) (hfreshBack l)).view
      refine .of_ok (bind_ok (hdelete.trans hrun)) ?_ matches_done
      rw [happly, view_of_agree hs', hl.view]
      simp [Editor.join?, view, hps, hback.view, hrv, drop_append]
    · have hlength := length_text_le_total hp
      have hnext := length_text_le_total (program?_of_split hps')
      have hlen := hback.length
      exact .starved (bind_error (hdelete.trans hrun))
        (hdenied.memoryFault (capacity_le_total hp) (by omega))
  · have hrun := hdelete.trans (mergeNext_of_last hlast)
    refine .refused (bind_error hrun) ?_
    rw [happly]
    cases ref with
    | user i => simp [Editor.join?, view, hlast i rfl]
    | _ => rfl

theorem simulates_delete (hat : s.At ref pc k) : Simulates s (.delete ref pc) (.delete ref k) := by
  cases hp : s.program? ref with
  | none =>
    refine .refused (bind_error (delete_of_none hp)) ?_
    cases k <;> simp [Editor.apply, Editor.remove, editable?_of_none hp]
  | some p =>
    by_cases he : s.Editable p
    swap
    · refine .refused (bind_error (delete_of_not_editable hp he)) ?_
      cases k <;> simp [Editor.apply, Editor.remove, editable?_of_not_editable hs hp he]
    obtain ⟨ls, hls, hfresh⟩ := (hs.program? hp).1
    rcases at_cases hp hls hat with ⟨rfl, rfl⟩ | ⟨rfl, rfl⟩ | ⟨front, l, back, rfl, rfl, rfl⟩
    · exact .refused (bind_error (delete_at_top hp he)) rfl
    · exact simulates_delete_end hs hp he hls
    · by_cases hoff : ((textOf front).length : Int) ≤ maxOffset
      · obtain ⟨p', s', hrun, hs', hsettled, -⟩ := delete_line_cases hp he hls hoff
          (hs.legible (stable_edited false)).programs
        have hp'v := (hsettled.holds_of_fresh (forall_mem_cut hfresh)).view
        refine .of_ok (bind_ok hrun) ?_ matches_done
        rw [apply_delete hs hp he, if_pos (by simp [hls.view]), view_of_agree hs',
          view_setProgram, hp'v, hls.view]
        simp [eraseIdx_append_of_length_le]
      · have hfar : maxOffset < ((textOf front).length : Int) := by omega
        exact .of_error (bind_error (delete_unaddressable hp he hls hfar)) (Agree.refl s)
          (.inr (.inl (memoryFault_of_far hp hls (by simp; omega) hfar _)))

theorem simulates_clear : Simulates s (.clearProgram ref) (.clear ref) := by
  cases hp : s.program? ref with
  | none =>
    exact .refused (bind_error (clearProgram_of_none hp))
      (by simp [Editor.apply, editable?_of_none hp])
  | some p =>
    by_cases he : s.Editable p
    · obtain ⟨p', s', hrun, hs', hp', -⟩ :=
        clearProgram_cases hp he fun _ _ => (hs.legible (stable_edited false)).programs
      refine .of_ok (bind_ok hrun) ?_ matches_done
      rw [view_of_agree hs', view_setProgram, hp'.holds.view]
      simp [Editor.apply, editable?_of_editable hs hp he]
    · exact .refused (bind_error (clearProgram_of_not_editable hp he))
        (by simp [Editor.apply, editable?_of_not_editable hs hp he])

end

/-! ### Programs and slots -/

theorem Empty.view (h : Empty g p) : p.view = [] := (Program.holds_nil h.text).view

theorem view_eq_nil_iff (h : p.Edited) : p.view = [] ↔ p.buffer.text.length = endBytes.length := by
  obtain ⟨ls, hls, -⟩ := h
  have hle := length_le_length_textOf ls
  have hend : endBytes.length = 2 := rfl
  rw [hls.view, map_eq_nil_iff, hls.length, hend]
  constructor
  · rintro rfl
    rfl
  · intro hlen
    exact eq_nil_of_length_eq_zero (by omega)

theorem simulates_newProgram (hs : s.Sound fun _ p => p.Edited) :
    Simulates s .newProgram .newProgram := by
  have hlast : s.view.programs.getLast? = s.programs.getLast?.map Program.view := by
    simp [view, getLast?_map]
  by_cases hempty : ∃ p, s.programs.getLast? = some p ∧ p.buffer.text.length = endBytes.length
  · obtain ⟨p, hp, ht⟩ := hempty
    have hv := (view_eq_nil_iff (hs.programs p (mem_of_getLast? hp)).1).2 ht
    refine .of_ok (bind_ok (newProgram_of_empty hp ht)) ?_ (matches_program _)
    rw [Editor.apply, if_pos (by rw [hlast, hp, map_some, hv])]
    simp [view]
  · have hfull : s.view.programs.getLast? ≠ some [] := by
      rw [hlast]
      intro h
      obtain ⟨p, hp, hv⟩ := map_eq_some_iff.1 h
      exact hempty ⟨p, hp, (view_eq_nil_iff (hs.programs p (mem_of_getLast? hp)).1).1 hv⟩
    have hrun := newProgram_of_full fun p hp ht => hempty ⟨p, hp, ht⟩
    rcases newProgram_create_cases s.programs.length
      (hs.legible (stable_edited false)).programs with
      ⟨p, s', hrun', hs', hp, -⟩ | ⟨e, used, hrun', hdenied⟩
    · refine .of_ok (bind_ok (hrun.trans hrun')) ?_ (matches_program _)
      rw [Editor.apply, if_neg hfull, view_of_agree hs']
      simp [view, hp.view]
    · exact .starved (bind_error (hrun.trans hrun'))
        (hdenied.memoryFault (Nat.zero_le _) (by omega))

theorem simulates_newSlot (s : Store) : Simulates s .newEquationSlot .newSlot := by
  have hfree : s.view.equations.findIdx? (·.isNone) = s.equations.findIdx? (·.isNone) := by
    simp [view, findIdx?_map, Function.comp_def]
  rcases newEquationSlot_cases s with ⟨p, hrun, hp, -⟩ | ⟨e, used, hrun, hdenied⟩
  · unfold freeSlot at hrun
    cases hi : s.equations.findIdx? (·.isNone) with
    | some i =>
      refine .of_ok (bind_ok hrun) ?_ (matches_program _)
      simp only [Editor.apply, hfree, hi]
      simp [view, host, opened, hi, hp.view, map_set]
    | none =>
      refine .of_ok (bind_ok hrun) ?_ (matches_program _)
      simp only [Editor.apply, hfree, hi]
      simp [view, host, opened, hi, hp.view]
  · exact .starved (bind_error hrun) (hdenied.memoryFault (Nat.zero_le _) (by omega))

theorem simulates_freeSlot (hs : s.Sound fun _ p => p.Edited) :
    Simulates s (.freeEquation ref) (.freeSlot ref) := by
  cases ref with
  | equation i =>
    cases hp : s.program? (.equation i) with
    | none =>
      exact .refused (bind_error (freeEquation_of_none hp))
        (by simp [Editor.apply, lines?_view, hp])
    | some p =>
      obtain ⟨s', hrun, hs'⟩ := freeEquation_of_idle hp (hs.program? hp).2
      refine .of_ok (bind_ok hrun) ?_ matches_done
      rw [view_of_agree hs']
      simp only [Editor.apply, lines?_view, hp, map_some, bind_eq_bind, bind_some]
      simp [view, map_set]
  | _ =>
    exact .refused (bind_error (freeEquation_of_not_equation (by simp))) rfl

/-! ### Brackets and targets -/

theorem Forgot.view (h : Forgot p p') (hp : p.Edited) : p'.view = p.view := by
  obtain ⟨ls, hls, hp', -⟩ := h
  rw [(hp'.holds_of_fresh (hp.fresh hls)).view, hls.view]

theorem simulates_endBulkLoad (hs : s.Sound fun _ p => p.Edited) :
    Simulates s .endBulkLoad .keep := by
  by_cases h0 : s.loading = 0
  · exact .of_ok (bind_ok (endBulkLoad_of_zero h0)) rfl matches_done
  by_cases h1 : s.loading = 1
  · obtain ⟨ps, es, s', hrun, hs', hps, hes, -⟩ := endBulkLoad_last h1
      (fun p hp => (stable_edited false).holds (n := 0) (hs.programs p hp).1)
      (fun p hp => (stable_edited false).holds (n := 0) (hs.equations p hp).1)
    refine .of_ok (bind_ok hrun) ?_ matches_done
    rw [view_of_agree hs']
    simp only [Editor.apply, view,
      map_eq_of_forall₂ hps fun p hp _ hforgot => hforgot.view (hs.programs p hp).1]
    rw [map_eq_of_forall₂ hes fun slot hp _ hslot => ?_]
    cases hslot with
    | none => rfl
    | some hforgot => rw [map_some, map_some, hforgot.view (hs.equations _ hp).1]
  · exact .of_ok (bind_ok (endBulkLoad_inner (by omega))) rfl matches_done

theorem simulates_invalidate (hs : s.Sound fun _ p => p.Edited) (force : Bool) :
    Simulates s (.invalidate ref force) .keep := by
  cases hp : s.program? ref with
  | none => exact .of_ok (bind_ok (invalidate_of_none hp force)) rfl matches_done
  | some p =>
    have hq := (hs.program? hp).1
    obtain ⟨ls, hls⟩ := (stable_edited false).holds (n := 0) hq
    have hforgot := forgot_clearAll hls
    have hrun := invalidate_of_holds hp hls force
    split at hrun
    · exact .of_ok (bind_ok hrun) rfl matches_done
    · refine .of_ok (bind_ok hrun) ?_ matches_done
      rw [view_setProgram, hforgot.view hq, ← view_setProgram, setProgram_self hp]
      rfl

end Store

/-! ## The store refines the editor -/

theorem Request.Means.simulates {s : Store} {r : Request} {op : Editor.Op}
    (hs : s.Sound fun _ p => p.Edited) (h : r.Means s op) : s.Simulates r op := by
  cases h with
  | newProgram => exact simulates_newProgram hs
  | newEquationSlot => exact simulates_newSlot s
  | freeEquation ref => exact simulates_freeSlot hs
  | insert hat hline => exact simulates_insert hs hat hline
  | insertAfter hat hline => exact simulates_insertAfter hs hat hline
  | delete hat => exact simulates_delete hs hat
  | clearProgram ref => exact simulates_clear hs
  | beginBulkLoad => exact .of_ok rfl rfl matches_done
  | endBulkLoad => exact simulates_endBulkLoad hs
  | openGenerated => exact .of_ok rfl rfl matches_done
  | closeGenerated => exact .of_ok rfl rfl matches_done
  | invalidate ref force => exact simulates_invalidate hs force

/-- The program is the well-formed lines as they are written, one behind the other, and one END;
    it reads back as these lines. -/
structure Program.Writes (p : Program) (lines : List Instr) : Prop where
  wellFormed : ∀ i ∈ lines, i.WellFormed
  text : ∃ codes, List.Forall₂ (fun i code => Instr.encode i = .ok code) lines codes ∧
    p.buffer.text = codes.flatten ++ endBytes
  view : p.view = lines.map Instr.stored

theorem exists_lines_of_fresh (h : ∀ l ∈ ls, l.Fresh) :
    ∃ lines : List Instr, (∀ i ∈ lines, i.WellFormed) ∧
      List.Forall₂ (fun i code => Instr.encode i = .ok code) lines (ls.map Line.bytes) ∧
      ls.map Line.instr = lines.map Instr.stored := by
  induction ls with
  | nil => exact ⟨[], by simp, .nil, rfl⟩
  | cons l ls ih =>
    obtain ⟨lines, hwf, hcodes, hview⟩ := ih fun m hm => h m (by simp [hm])
    obtain ⟨i, hi, hcode⟩ := h l (by simp)
    obtain ⟨l', hb, -, hinstr⟩ := hi.exists_line hcode
    obtain rfl : l' = l := Line.ext hb
    refine ⟨i :: lines, ?_, .cons hcode hcodes, ?_⟩
    · simpa using ⟨hi, hwf⟩
    · rw [map_cons, map_cons, hinstr, hview]

theorem Program.Edited.writes (h : p.Edited) : ∃ lines, p.Writes lines := by
  obtain ⟨ls, hls, hfresh⟩ := h
  obtain ⟨lines, hwf, hcodes, hview⟩ := exists_lines_of_fresh hfresh
  refine ⟨lines, hwf, ⟨_, hcodes, ?_⟩, hls.view.trans hview⟩
  rw [hls.textEq, textOf, flatMap_def]

/-- The steps of the editor that the requests stood for which led to a store from a new one.
    Requests that failed are none. -/
inductive Edits (options : Options) : List Editor.Op → Store → Prop
  | new {s : Store} (h : new options = .ok s) : Edits options [] s
  | ok {ops : List Editor.Op} {op : Editor.Op} {s s' : Store} {r : Request} {reply : Reply}
      (h : Edits options ops s) (hr : r.Means s op) (hrun : r.run s = .ok reply s') :
      Edits options (ops ++ [op]) s'
  | error {ops : List Editor.Op} {op : Editor.Op} {s s' : Store} {r : Request} {e : Error}
      (h : Edits options ops s) (hr : r.Means s op) (hrun : r.run s = .error e s') :
      Edits options ops s'

variable {options : Options} {ops : List Editor.Op} {s : Store}

theorem Request.Means.obeys {r : Request} {op : Editor.Op} (h : r.Means s op) :
    r.Obeys editing s := by
  cases h with
  | insert hat hline | insertAfter hat hline => exact ⟨⟨_, hat⟩, hline⟩
  | delete hat => exact ⟨_, hat⟩
  | _ => trivial

theorem Edits.sound (h : Edits options ops s) : s.Sound fun _ p => p.Edited := by
  have hreach : Reachable editing options s := by
    induction h with
    | new h => exact .new h
    | ok _ hr hrun ih => exact .ok ih hr.obeys hrun
    | error _ hr hrun ih => exact .error ih hr.obeys hrun
  exact (hreach.sound (stable_edited _)).1

/-- A store that is edited from new on shows what the editor shows after the same steps. Its
    programs are well-formed lines and an END at all times, and the next request does what the next
    step of the editor does. -/
theorem Edits.refines_editor (h : Edits options ops s) :
    (∃ hasProgram, (Editor.start hasProgram).run ops = some s.view ∧
      (hasProgram = false → 0 < options.memoryLimit)) ∧
    (∀ ref p, s.program? ref = some p → ∃ lines, p.Writes lines) ∧
    ∀ r op, r.Means s op → s.Simulates r op := by
  refine ⟨?_, fun ref p hp => (h.sound.program? hp).1.writes, fun r op hr => hr.simulates h.sound⟩
  induction h with
  | new h =>
    obtain ⟨-, hes, -, hg, ⟨p, hps, hp⟩ | ⟨hps, hlimit⟩, -⟩ := new_cases h
    · exact ⟨true, by simp [Editor.run, view, Editor.start, hps, hes, hg, hp.view], by simp⟩
    · exact ⟨false, by simp [Editor.run, view, Editor.start, hps, hes, hg], fun _ => hlimit⟩
  | ok h hr hrun ih =>
    obtain ⟨hasProgram, hview, hlimit⟩ := ih
    obtain ⟨answer, happly, -⟩ := (hr.simulates h.sound).ok hrun
    refine ⟨hasProgram, ?_, hlimit⟩
    rw [Editor.run_append, hview, bind_some, happly]
    rfl
  | error h hr hrun ih =>
    obtain ⟨hasProgram, hview, hlimit⟩ := ih
    rw [((hr.simulates h.sound).error hrun).1]
    exact ⟨hasProgram, hview, hlimit⟩

/-- A jump is put in and an END behind it: two programs are left, and the jump is in the first. -/
theorem edits_end_behind_jump :
    let jump : Instr := .withNum .gto 1
    let ops : List Editor.Op :=
      [.insert (.user 0) (some 0) jump, .insertAfter (.user 0) (some 0) (.plain .endLine)]
    ∃ s, Edits {} ops s ∧ s.view = ⟨[[jump], []], [], 0⟩ ∧
      (Editor.start true).run ops = some s.view := by
  intro jump ops
  have hjump : jump.WellFormed := ⟨⟨_, rfl⟩, by decide, by decide, by decide, by decide⟩
  let p : Program := { buffer := ⟨[0x90, 0], [], 62⟩ }
  let s : Store := { options := {}, programs := [p], labels := [⟨none, 0, 0⟩], used := 64 }
  let q : Program :=
    { buffer := ⟨[0x8F, 1, 0xFF, 0xFF, 0xFF, 0xFF, 0x81, 0x90, 0], [], 55⟩, cachesClear := true }
  let t : Store := { s with programs := [q], labels := [⟨none, 0, 7⟩], edits := 1 }
  let u : Store := { t with
    programs := [q, { p with cachesClear := true }]
    labels := [⟨none, 0, 7⟩, ⟨none, 1, 0⟩]
    used := 128
    edits := 2 }
  have hinsert : (Request.insert (.user 0) 0 jump).Means s (.insert (.user 0) (some 0) jump) :=
    .insert ⟨p, 0, rfl, by decide, rfl⟩ (Or.inr hjump)
  have hafter : (Request.insertAfter (.user 0) 0 (.plain .endLine)).Means t
      (.insertAfter (.user 0) (some 0) (.plain .endLine)) :=
    .insertAfter ⟨q, 0, rfl, by decide, rfl⟩ (Or.inl rfl)
  have hs : Edits {} [] s := .new (by cbv)
  have hrun₁ : (Request.insert (.user 0) 0 jump).run s = .ok (.program (.user 0)) t := by
    decide +kernel
  have hrun₂ : (Request.insertAfter (.user 0) 0 (.plain .endLine)).run t
      = .ok (.line (.user 1) (-1)) u := by decide +kernel
  have hu : Edits {} ops u := .ok (.ok hs hinsert hrun₁) hafter hrun₂
  obtain ⟨hasProgram, hrun, hlimit⟩ := (Edits.refines_editor hu).1
  obtain rfl : hasProgram = true := by simpa using hlimit
  exact ⟨u, hu, by decide, hrun⟩

end Keystroke
