import Keystroke.Compile.Code
import Keystroke.Proofs.Store.Labels

set_option autoImplicit false

/-! # What an edit keeps

An edit of a program takes memory, writes the program, brings the label table up to date and counts
itself; all else it does is reading. A property of stores that each of these parts keeps
(`Store.Kept`) is therefore kept by whole edits, whether they succeed or fail at any point. Of an
END it is asked besides that cutting and joining programs keeps it (`Store.Cuts`). -/

namespace Keystroke

variable {P : Store → Prop} {R : Nat → Prop} {ref : ProgramRef}

open Operation

namespace Store

/-! ## Operations that only read -/

section

variable {α β : Type} {P : Store → Prop}

theorem leads_of_state {x : Edit α} (h : ∀ s, state (x s) = s) : Leads P x P := by
  intro s hs
  rw [h]
  exact hs

theorem leads_throw (e : Error) : Leads P (throw e : Edit α) P := fun _ hs => hs

theorem leads_ofExcept (r : Except Error α) : Leads P (Edit.ofExcept r) P :=
  leads_of_state fun _ => by cases r <;> rfl

theorem leads_get_bind {f : Store → Edit β} (hf : ∀ s, Leads P (f s) P) : Leads P (get >>= f) P :=
  fun s hs => hf s s hs

theorem leads_checkEditable (p : Program) : Leads P (checkEditable p) P := by
  refine leads_of_state fun s => ?_
  by_cases h : s.Editable p
  · rw [checkEditable_of_editable h]
    rfl
  · rw [checkEditable_of_not_editable h]
    rfl

theorem leads_resolve_bind {f : Instr → Edit β} (line : Instr)
    (hf : ∀ line', line'.command = line.command → Leads P (f line') P) :
    Leads P (resolve line >>= f) P := by
  intro s hs
  cases hline : s.resolved? line with
  | none =>
    rw [bind_error (resolve_of_none hline)]
    exact hs
  | some line' =>
    rw [bind_ok (resolve_of_some hline)]
    exact hf _ (resolved?_same hline).1 s hs

/-! ## Taking memory -/

section

variable (h : ∀ wanted least held, Leads P (allocate wanted least held) P)

include h

theorem leads_newBuffer (size : Nat) : Leads P (newBuffer size) P :=
  leads_get_bind fun _ => (h _ _ _).bind fun _ => .pure _

theorem leads_emptyProgram (generated : Bool) : Leads P (emptyProgram generated) P :=
  (leads_newBuffer h _).bind fun _ => .pure _

theorem leads_reserve (b : Buffer) (extra : Nat) : Leads P (reserve b extra) P := by
  unfold reserve
  dsimp only
  split
  · exact .pure b
  · exact leads_get_bind fun _ => (h _ _ _).bind fun _ => .pure _

end

end

/-! ## Parts of an edit -/

/-- The property is kept by the parts of an edit of the program. `R` holds of the number of returns
    that are pending into it, which no edit changes. -/
structure Kept (P : Store → Prop) (R : Nat → Prop) (ref : ProgramRef) : Prop where
  read : ∀ {s p}, P s → s.program? ref = some p → R p.refs
  write : ∀ {s q}, P s → R q.refs → P (s.setProgram ref q)
  allocate : ∀ wanted least held, Leads P (allocate wanted least held) P
  rebuildLabels : Leads P rebuildLabels P
  shiftLabels : ∀ pc delta, Leads P (shiftLabels ref pc delta) P
  edited : Leads P edited P

/-- The property is also kept where an END cuts a user program in two or is taken out. -/
structure Cuts (P : Store → Prop) (R : Nat → Prop) (ref : ProgramRef) : Prop where
  cut : ∀ {i s q r}, ref = .user i → P s → R q.refs → r.refs = 0 → P { s with
    programs := (s.programs.set i.toNat q).take (i.toNat + 1) ++
      r :: (s.programs.set i.toNat q).drop (i.toNat + 1) }
  join : ∀ {i s}, ref = .user i → P s → P { s with programs := s.programs.eraseIdx (i.toNat + 1) }
  next : ∀ {i}, ref = .user i → Leads P (invalidate (.user (i.toNat + 1 : Nat)) true) P

theorem leads_getProgram {α : Type} {f : Program → Edit α}
    (hread : ∀ {s p}, P s → s.program? ref = some p → R p.refs)
    (hf : ∀ p, R p.refs → Leads P (f p) P) : Leads P (getProgram ref >>= f) P := by
  intro s hs
  cases hp : s.program? ref with
  | none =>
    rw [bind_error (getProgram_of_none hp)]
    exact hs
  | some p =>
    rw [bind_ok (getProgram_of_some hp)]
    exact hf p (hread hs hp) s hs

theorem leads_invalidate_of (hread : ∀ {s p}, P s → s.program? ref = some p → R p.refs)
    (hwrite : ∀ {s q}, P s → R q.refs → P (s.setProgram ref q)) (force : Bool) :
    Leads P (invalidate ref force) P := by
  intro s hs
  unfold invalidate
  rw [get_bind]
  cases hp : s.program? ref with
  | none => exact hs
  | some p =>
    dsimp only
    split
    · exact hs
    -- The program that is written differs from the one that was read in its text only.
    · cases clearTargets p.buffer.text.length p.buffer.text with
      | error e => exact hs
      | ok text =>
        have hrefs : R p.refs := hread hs hp
        exact hwrite hs hrefs

theorem leads_invalidateAll_of (hwrite : ∀ {s} ref q, P s → P (s.setProgram ref q))
    (refs : List ProgramRef) : Leads P (invalidateAll refs) P := by
  induction refs with
  | nil => exact .pure ()
  | cons ref rest ih =>
    have hfirst := @leads_invalidate_of P (fun _ => True) ref (fun _ _ => trivial)
      (fun hs _ => hwrite ref _ hs) true
    exact hfirst.bind fun _ => ih

namespace Kept

variable {P : Store → Prop} {R : Nat → Prop} {ref : ProgramRef}

theorem invalidate (h : Kept P R ref) (force : Bool) : Leads P (invalidate ref force) P :=
  leads_invalidate_of h.read h.write force

theorem finishLineEdit (h : Kept P R ref) (pc delta : Int) (isLabel : Bool) :
    Leads P (finishLineEdit ref pc delta isLabel) P := by
  -- The label table is brought up to date first, and then the same is done in either case.
  have hfinish : Leads P (refreshTargets ref) P := by
    refine leads_get_bind fun s => ?_
    split
    · exact (h.invalidate false).bind fun _ => h.edited
    · exact .pure ()
  cases isLabel with
  | true => exact h.rebuildLabels.bind fun _ => hfinish
  | false => exact (h.shiftLabels pc delta).bind fun _ => hfinish

theorem splitProgram (h : Kept P R ref) (hcut : Cuts P R ref) {p : Program} (hp : R p.refs)
    (pc : Nat) : Leads P (splitProgram ref p pc) P := by
  cases ref with
  | user i =>
    refine (leads_newBuffer h.allocate _).bind fun b => ?_
    -- The program is cut, and the one that holds its rest comes to stand behind it.
    refine Leads.bind (fun s hs => hcut.cut rfl hs hp rfl) fun _ => ?_
    refine h.rebuildLabels.bind fun _ => (hcut.next rfl).bind fun _ => ?_
    exact (h.invalidate true).bind fun _ => h.edited.bind fun _ => .pure _
  | none | equation | solver | integrator => exact leads_throw _

theorem mergeNext (h : Kept P R ref) (hcut : Cuts P R ref) (hfree : ∀ b, Leads P (free b) P)
    {p : Program} (hp : R p.refs) : Leads P (mergeNext ref p) P := by
  cases ref with
  | user i =>
    refine leads_get_bind fun s => ?_
    cases s.programs[i.toNat + 1]? with
    | none => exact leads_throw _
    | some next =>
      refine (leads_reserve h.allocate _ _).bind fun b => ?_
      refine Leads.bind (fun s hs => h.write hs hp) fun _ => (hfree _).bind fun _ => ?_
      refine Leads.bind (fun s hs => hcut.join rfl hs) fun _ => ?_
      exact h.rebuildLabels.bind fun _ => (h.invalidate true).bind fun _ => h.edited
  | none | equation | solver | integrator => exact leads_throw _

/-! ## Whole edits -/

section

variable (h : Kept P R ref)

include h

theorem putLine {p : Program} (hp : R p.refs) (place : Nat) (line : Instr)
    (hcut : line.command = .endLine → Cuts P R ref) : Leads P (putLine ref p place line) P := by
  unfold Store.putLine
  split
  · next hend => exact h.splitProgram (hcut hend) hp _
  · refine (leads_ofExcept _).bind fun code => (leads_reserve h.allocate _ _).bind fun b => ?_
    refine Leads.bind (fun s hs => h.write hs hp) fun _ => ?_
    exact (h.finishLineEdit _ _ _).bind fun _ => .pure _

theorem insert (pc : Int) (line : Instr)
    (hcut : line.command = .endLine → Cuts P R ref) : Leads P (insert ref pc line) P := by
  refine leads_getProgram h.read fun p hp => (leads_checkEditable p).bind fun _ => ?_
  dsimp only
  generalize (if pc = -1 then 0 else pc) = place
  split
  · exact leads_throw _
  · exact leads_resolve_bind line fun line' hline =>
      h.putLine hp _ line' fun hend => hcut (hline ▸ hend)

theorem insertAfter (pc : Int) (line : Instr)
    (hcut : line.command = .endLine → Cuts P R ref) :
    Leads P (insertAfter ref pc line) P := by
  have hinsert (place : Int) : Leads P (do
      return placed ref line place (← Store.insert ref place line) : Edit (ProgramRef × Int)) P :=
    (h.insert place line hcut).bind fun _ => .pure _
  refine leads_getProgram h.read fun p _ => ?_
  dsimp only
  split
  · exact hinsert 0
  · cases headerAt? p.buffer.text pc with
    | none => exact leads_throw _
    | some hd =>
      dsimp only
      split
      · exact hinsert pc
      · exact (leads_ofExcept _).bind fun size => hinsert (pc + size)

theorem delete {s : Store} (hfree : ∀ b, Leads P (free b) P) {pc : Int}
    (hcut : ∀ {p hd}, s.program? ref = some p → headerAt? p.buffer.text pc = some hd →
      hd.command = .endLine → Cuts P R ref) (hs : P s) : P (state (delete ref pc s)) := by
  unfold Store.delete
  cases hp : s.program? ref with
  | none =>
    rw [bind_error (getProgram_of_none hp)]
    exact hs
  | some p =>
    have hrefs := h.read hs hp
    rw [bind_ok (getProgram_of_some hp)]
    refine (leads_checkEditable p).bind (fun _ => ?_) s hs
    dsimp only
    split
    · exact leads_throw _
    · cases hhd : headerAt? p.buffer.text pc with
      | none => exact leads_throw _
      | some hd =>
        dsimp only
        split
        · next hend => exact h.mergeNext (hcut hp hhd hend) hfree hrefs
        · refine (leads_ofExcept _).bind fun size => ?_
          exact Leads.bind (fun s hs => h.write hs hrefs) fun _ => h.finishLineEdit _ _ _

theorem clearProgram : Leads P (clearProgram ref) P := by
  refine leads_getProgram h.read fun p hp => (leads_checkEditable p).bind fun _ => ?_
  refine Leads.bind (fun s hs => h.write hs hp) fun _ => ?_
  cases ref with
  | user i => exact h.rebuildLabels.bind fun _ => h.edited
  | none | equation | solver | integrator => exact h.edited

theorem storeLines (hcut : Cuts P R ref) (pc : Int) (lines : List Instr) :
    Leads P (Code.storeLines ref pc lines) P := by
  induction lines generalizing pc with
  | nil => exact .pure ()
  | cons line rest ih =>
    intro s hs
    have hinsert := h.insertAfter pc line (fun _ => hcut) s hs
    simp only [Code.storeLines]
    cases hrun : Store.insertAfter ref pc line s with
    | ok result t =>
      rw [hrun] at hinsert
      exact ih result.2 t hinsert
    | error e t =>
      rw [hrun] at hinsert
      exact hinsert

end

end Kept

end Store

end Keystroke
