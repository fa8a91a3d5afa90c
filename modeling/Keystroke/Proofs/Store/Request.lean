import Keystroke.Proofs.Store.Edit
import Keystroke.Proofs.Store.Resolve

set_option autoImplicit false

/-! # Sequences of requests

Everything that can be asked of a store is a `Request`. A property of programs that holds of empty
ones and survives what single requests do to a program (`Stable`) holds of every program of every
store that requests lead to (`Reachable.sound`), whether they succeed or fail. -/

namespace Keystroke

open Operation List Option

variable {ls front back : List Line} {pc : Int} {k : Option Nat} {s' : Store} {line : Instr}

/-! ## Requests -/

/-- What can be asked of a store. -/
inductive Request where
  | newProgram
  | newEquationSlot
  | freeEquation (ref : ProgramRef)
  | insert (ref : ProgramRef) (pc : Int) (line : Instr)
  | insertAfter (ref : ProgramRef) (pc : Int) (line : Instr)
  | delete (ref : ProgramRef) (pc : Int)
  | clearProgram (ref : ProgramRef)
  | beginBulkLoad
  | endBulkLoad
  | openGenerated
  | closeGenerated
  | invalidate (ref : ProgramRef) (force : Bool)
  | resolve (ref : ProgramRef) (pc : Int)
deriving DecidableEq

/-- What a request gives back. -/
inductive Reply where
  | done
  | program (ref : ProgramRef)
  | line (ref : ProgramRef) (pc : Int)
  | read (line : Instr) (size : Nat)
deriving DecidableEq

/-- The operation that a request stands for. -/
def Request.run : Request → Edit Reply
  | newProgram => do return .program (← Store.newProgram)
  | newEquationSlot => do return .program (← Store.newEquationSlot)
  | freeEquation ref => do Store.freeEquation ref; return .done
  | insert ref pc line => do return .program (← Store.insert ref pc line)
  | insertAfter ref pc line => do
    let (ref, pc) ← Store.insertAfter ref pc line
    return .line ref pc
  | delete ref pc => do Store.delete ref pc; return .done
  | clearProgram ref => do Store.clearProgram ref; return .done
  | beginBulkLoad => do Store.beginBulkLoad; return .done
  | endBulkLoad => do Store.endBulkLoad; return .done
  | openGenerated => do modify Store.openGenerated; return .done
  | closeGenerated => do modify Store.closeGenerated; return .done
  | invalidate ref force => do Store.invalidate ref force; return .done
  | resolve ref pc => do
    let (line, size) ← Store.resolveTarget ref pc
    return .read line size

/-- An offset in a request: the -1 that stands for the top, or the start of the `k`-th line of the
    program that is addressed. -/
def Store.At (s : Store) (ref : ProgramRef) (pc : Int) : Option Nat → Prop
  | none => pc = -1
  | some k => ∃ p n, s.program? ref = some p ∧ LineAt p.buffer.text k n ∧ pc = (n : Nat)

/-- Which lines may be inserted, and whether targets are looked up. -/
structure Rules where
  line : Instr → Prop
  lookups : Prop

/-- The request has its offsets at lines and keeps to the rules. -/
def Request.Obeys (rules : Rules) (s : Store) : Request → Prop
  | insert ref pc line | insertAfter ref pc line => (∃ k, s.At ref pc k) ∧ rules.line line
  | delete ref pc => ∃ k, s.At ref pc k
  | resolve ref pc => rules.lookups ∧ ∃ k, s.At ref pc k
  | _ => True

/-- The stores that requests lead to from a new one, also by requests that fail. -/
inductive Reachable (rules : Rules) (options : Options) : Store → Prop
  | new {s : Store} (h : Store.new options = .ok s) : Reachable rules options s
  | ok {s s' : Store} {r : Request} {reply : Reply} (h : Reachable rules options s)
      (hr : r.Obeys rules s) (hrun : r.run s = .ok reply s') : Reachable rules options s'
  | error {s s' : Store} {r : Request} {e : Error} (h : Reachable rules options s)
      (hr : r.Obeys rules s) (hrun : r.run s = .error e s') : Reachable rules options s'

/-! ## Properties of all programs -/

/-- A property of programs, which may depend on the number of open bulk loads, that requests
    keep. -/
structure Stable (rules : Rules) (strict : Bool) (Q : Nat → Program → Prop) : Prop where
  /-- Programs with the property are lists of lines. -/
  holds {n : Nat} {p : Program} (h : Q n p) : ∃ ls, p.Holds ls
  /-- An operand that names an entry of the label table may be replaced by the name. -/
  resolved {s : Store} {line line' : Instr} (h : rules.line line)
    (hline : s.resolved? line = some line') : rules.line line'
  empty {n : Nat} {g : Bool} {p : Program} (h : Store.Empty g p) : Q n p
  spelled {line : Instr} (h : rules.line line) (hnumber : line.command = .number) :
    0 ∉ line.numberText
  /-- A line is put in. -/
  inserted {n : Nat} {p p' : Program} {front back : List Line} {line : Instr} {l : Line}
    (h : Q n p) (hl : p.Holds (front ++ back)) (hline : rules.line line)
    (hend : line.command ≠ .endLine) (hwrites : l.Writes line)
    (hp' : p.Settled n (front ++ l :: back) p') : Q n p'
  /-- A line is taken out. -/
  deleted {n : Nat} {p p' : Program} {front back : List Line} {l : Line}
    (h : Q n p) (hl : p.Holds (front ++ l :: back)) (hp' : p.Settled n (front ++ back) p') : Q n p'
  /-- Lines of programs with the property are put together, and their targets forgotten. -/
  cleared {n r : Nat} {g : Bool} {p' : Program} {ls : List Line}
    (h : ∀ l ∈ ls, ∃ m q ms, Q m q ∧ q.Holds ms ∧ l ∈ ms) (hp' : Store.Cleared ls r g p') : Q n p'
  /-- In a bulk load less is asked of a program. -/
  opened {n m : Nat} {p : Program} (h : Q n p) : Q (m + 1) p
  /-- The target of a line is looked up. -/
  lookedUp {n : Nat} {p : Program} {front back : List Line} {l : Line} {t : Int32}
    (hrule : rules.lookups) (h : Q n p) (hl : p.Holds (front ++ l :: back))
    (hc : hasJumpCache l.instr.command l.instr.operand.kind = true)
    (hu : l.target = targetUnknown)
    (hfresh : freshTarget strict p.buffer.text (textOf front).length l.instr l.size = .ok t) :
    l.header.cached = true ∧
      Q n (p.withText (textOf (front ++ l.withTarget t :: back ++ [Line.endLine])) false)

namespace Store

/-- All programs have a property; those of the user were typed in, those in the slots were
    compiled, and no return into any of them is pending. -/
structure Sound (Q : Nat → Program → Prop) (s : Store) : Prop where
  programs : ∀ p ∈ s.programs, Q s.loading p ∧ p.generated = false ∧ p.refs = 0
  equations : ∀ p, some p ∈ s.equations → Q s.loading p ∧ p.generated = true ∧ p.refs = 0

variable {Q : Nat → Program → Prop} {s t : Store} {ref : ProgramRef} {p p' : Program}

namespace Sound

theorem of_agree (hs : s.Sound Q) (h : s.Agree t) : t.Sound Q := by
  obtain ⟨h1, h2⟩ := hs
  rw [h.programs, h.loading] at h1
  rw [h.equations, h.loading] at h2
  exact ⟨h1, h2⟩

section

variable (hs : s.Sound Q) (hp : s.program? ref = some p)

include hs hp

theorem program? : Q s.loading p ∧ p.refs = 0 := by
  cases ref with
  | user i =>
    obtain ⟨-, hi⟩ := program?_user_eq_some_iff.1 hp
    obtain ⟨hq, -, hr⟩ := hs.programs p (mem_of_getElem? hi)
    exact ⟨hq, hr⟩
  | equation i =>
    obtain ⟨-, hi⟩ := program?_equation_eq_some_iff.1 hp
    obtain ⟨hq, -, hr⟩ := hs.equations p (mem_of_getElem? hi)
    exact ⟨hq, hr⟩
  | none | solver | integrator => cases hp

theorem generated : p.generated = true ↔ ∃ i, ref = .equation i := by
  cases ref with
  | user i =>
    obtain ⟨-, hi⟩ := program?_user_eq_some_iff.1 hp
    simp [(hs.programs p (mem_of_getElem? hi)).2.1]
  | equation i =>
    obtain ⟨-, hi⟩ := program?_equation_eq_some_iff.1 hp
    simp [(hs.equations p (mem_of_getElem? hi)).2.1]
  | none | solver | integrator => cases hp

theorem setProgram (hq : Q s.loading p')
    (hg : p'.generated = p.generated) (hr : p'.refs = p.refs) : (s.setProgram ref p').Sound Q := by
  cases ref with
  | user i =>
    obtain ⟨-, hi⟩ := program?_user_eq_some_iff.1 hp
    obtain ⟨-, hpg, hpr⟩ := hs.programs p (mem_of_getElem? hi)
    refine ⟨fun q hmem => ?_, hs.equations⟩
    rcases mem_or_eq_of_mem_set hmem with hmem | rfl
    · exact hs.programs q hmem
    · exact ⟨hq, by rw [hg, hpg], by rw [hr, hpr]⟩
  | equation i =>
    obtain ⟨-, hi⟩ := program?_equation_eq_some_iff.1 hp
    obtain ⟨-, hpg, hpr⟩ := hs.equations p (mem_of_getElem? hi)
    refine ⟨hs.programs, fun q hmem => ?_⟩
    rcases mem_or_eq_of_mem_set hmem with hmem | hmem
    · exact hs.equations q hmem
    · obtain rfl := some.inj hmem
      exact ⟨hq, by rw [hg, hpg], by rw [hr, hpr]⟩
  | none | solver | integrator => cases hp

end

end Sound

/-! ## Offsets -/

theorem lineAt_cases {k n : Nat} (hl : p.Holds ls) (h : LineAt p.buffer.text k n) :
    k = ls.length ∧ n = (textOf ls).length ∨
      ∃ front l back, ls = front ++ l :: back ∧ front.length = k ∧ n = (textOf front).length := by
  rw [hl.text] at h
  obtain ⟨front, l, back, heq, hlen, rfl⟩ := lineAt_textOf.1 h
  rcases eq_nil_or_concat back with rfl | ⟨back, l', rfl⟩
  · obtain ⟨rfl, -⟩ := append_inj heq (by simpa using congrArg length heq)
    exact Or.inl ⟨hlen.symm, rfl⟩
  · have heq' : ls ++ [Line.endLine] = (front ++ l :: back) ++ [l'] := by simpa using heq
    obtain ⟨rfl, -⟩ := append_inj' heq' rfl
    exact Or.inr ⟨front, l, back, rfl, hlen, rfl⟩

section

variable (hp : s.program? ref = some p) (hl : p.Holds ls) (hat : s.At ref pc k)

include hp hl hat

theorem at_cases :
    pc = -1 ∧ k = none ∨ pc = (textOf ls).length ∧ k = some ls.length ∨
      ∃ front l back, ls = front ++ l :: back ∧ pc = (textOf front).length ∧
        k = some front.length := by
  cases k with
  | none => exact .inl ⟨hat, rfl⟩
  | some k =>
    obtain ⟨p', n, hp', hn, rfl⟩ := hat
    obtain rfl := some.inj (hp.symm.trans hp')
    rcases lineAt_cases hl hn with ⟨rfl, rfl⟩ | ⟨front, l, back, rfl, rfl, rfl⟩
    · exact .inr (.inl ⟨rfl, rfl⟩)
    · exact .inr (.inr ⟨front, l, back, rfl, rfl, rfl⟩)

theorem exists_place :
    ∃ front back, ls = front ++ back ∧ IsPlace front pc ∧ front.length = k.getD 0 := by
  rcases at_cases hp hl hat with ⟨rfl, rfl⟩ | ⟨rfl, rfl⟩ | ⟨front, l, back, rfl, rfl, rfl⟩
  · exact ⟨[], ls, rfl, .inr ⟨rfl, rfl⟩, rfl⟩
  · exact ⟨ls, [], by simp, .inl rfl, rfl⟩
  · exact ⟨front, l :: back, rfl, .inl rfl, rfl⟩

/-- Behind the END there is no place, and the one in front of it is taken. -/
theorem exists_behind :
    ∃ front back, ls = front ++ back ∧
      (IsLast front pc ∨ back = [] ∧ pc = (textOf front).length) ∧
      front.length = (k.map (min (· + 1) ls.length)).getD 0 := by
  rcases at_cases hp hl hat with ⟨rfl, rfl⟩ | ⟨rfl, rfl⟩ | ⟨front, l, back, rfl, rfl, rfl⟩
  · exact ⟨[], ls, rfl, .inl (.inl ⟨rfl, rfl⟩), rfl⟩
  · exact ⟨ls, [], by simp, .inr ⟨rfl, rfl⟩, by simp⟩
  · exact ⟨front ++ [l], back, by simp, .inl (.inr ⟨front, l, rfl, rfl⟩), by simp⟩

end

/-! ## What edits do -/

/-- How an edit changes programs and slots. The lines that are put in have the property `P`. -/
inductive Change (P : Instr → Prop) (s : Store) : Store → Prop
  | none : Change P s s
  | inserted {ref : ProgramRef} {p p' : Program} {front back : List Line} {line : Instr} {l : Line}
      (hp : s.program? ref = some p) (hl : p.Holds (front ++ back)) (hline : P line)
      (hend : line.command ≠ .endLine) (hwrites : l.Writes line)
      (hp' : p.Settled s.loading (front ++ l :: back) p') : Change P s (s.setProgram ref p')
  | deleted {ref : ProgramRef} {p p' : Program} {front back : List Line} {l : Line}
      (hp : s.program? ref = some p) (hl : p.Holds (front ++ l :: back))
      (hp' : p.Settled s.loading (front ++ back) p') : Change P s (s.setProgram ref p')
  /-- Targets are forgotten, and perhaps all lines are taken out. -/
  | cleared {ref : ProgramRef} {p p' : Program} {ls ms : List Line} (hp : s.program? ref = some p)
      (hl : p.Holds ms) (hls : ls ⊆ ms) (hp' : Cleared ls p.refs p.generated p') :
      Change P s (s.setProgram ref p')
  | split {pre post : List Program} {p q r : Program} {front back : List Line}
      (hps : s.programs = pre ++ p :: post) (hl : p.Holds (front ++ back))
      (hq : Cleared front p.refs p.generated q) (hr : Cleared back 0 false r) :
      Change P s { s with programs := pre ++ q :: r :: post }
  | joined {pre post : List Program} {p q r : Program} {front back : List Line}
      (hps : s.programs = pre ++ p :: q :: post) (hl : p.Holds front) (hq : q.Holds back)
      (hr : Cleared (front ++ back) p.refs p.generated r) :
      Change P s { s with programs := pre ++ r :: post }
  | created {p : Program} (hp : Empty false p) : Change P s { s with programs := s.programs ++ [p] }
  | taken {p : Program} (hp : Empty true p) : Change P s (s.opened.host s.freeSlot p)
  | freed {i : Nat} : Change P s { s with equations := s.equations.set i none }

/-- Memory in use may change so: it becomes no more, or the most that is in use on the way is within
    the limit. -/
def Allows (s t : Store) : Prop :=
  t.total ≤ s.total ∨ ∃ top : Nat, t.total ≤ top ∧ top ≤ s.total + t.total ∧
    (0 < s.options.memoryLimit → inWord (s.used + (top - s.total)) ≤ s.options.memoryLimit)

/-- A bound on the capacity that an operation asks for at once, where buffers have the capacity `n`
    together and `size` bytes are put in. -/
def appetite (o : Options) (n size : Nat) : Nat := 2 * n + o.initialCapacity.toNat + size

/-- How an edit ends: with programs and slots changed, memory counted and the label table up to
    date, or with nothing changed. It crashes only for want of more memory than there can be. -/
inductive Edited (P : Instr → Prop) (s : Store) (size : Nat) {α : Type} :
    EStateM.Result Error Store α → Prop
  | ok {a : α} {t u : Store} (hchange : Change P s u) (hagree : t.Agree u)
      (hbalanced : s.Balanced t) (hallows : s.Allows t) (hlisted : s.Listed → t.Listed) :
      Edited P s size (.ok a t)
  | error {e : Error} (used : Int)
      (hcrash : e.isCrash = true → maxCapacity < appetite s.options s.total size) :
      Edited P s size (.error e { s with used := used })

section

variable {P : Instr → Prop} {size held need c : Nat} {α β : Type} {front back : List Line}

/-- Memory is taken for a capacity in the place of `held`, and perhaps some is given back then. -/
theorem Granted.allows (h : s.Granted held need c) (freed : Nat) (hfreed : held + freed ≤ s.total)
    (ht : t.total + held + freed = s.total + c) : s.Allows t := by
  rcases h.fresh with hsame | ⟨-, -, -, hlimit⟩
  · exact .inl (by omega)
  · have hmore := h.enough
    refine .inr ⟨t.total + freed, by omega, by omega, fun hpos => ?_⟩
    rw [show ((t.total + freed : Nat) - s.total : Int) = c - held by omega]
    exact hlimit hpos

theorem Denied.crash {e : Error} (h : s.Denied held need e) (hheld : held ≤ s.total)
    (hneed : need ≤ s.total + size) :
    e.isCrash = true → maxCapacity < appetite s.options s.total size := by
  intro hcrash
  unfold appetite
  rcases h.fault with ⟨rfl, -⟩ | ⟨-, hbig⟩
  · cases hcrash
  · omega

theorem Denied.crash_of_empty {e : Error} (h : s.Denied 0 endBytes.length e) :
    e.isCrash = true → maxCapacity < appetite s.options s.total size := by
  intro hcrash
  have hend : endBytes.length ≤ maxCapacity := by decide
  unfold appetite
  rcases h.fault with ⟨rfl, -⟩ | ⟨-, hbig⟩
  · cases hcrash
  · omega

namespace Edited

theorem refused {x : Edit α} {e : Error} (h : x s = .error e s) (he : e.isCrash = false) :
    Edited P s size (x s) := by
  rw [h]
  exact .error s.used (by simp [he])

theorem same (a : α) : Edited P s size (.ok a s) :=
  .ok .none (.refl s) (.of_same rfl rfl) (.inl (Nat.le_refl _)) fun h => h

theorem rewrite {u : Store} {p' : Program} {a : α} (hp : s.program? ref = some p)
    (hchange : Change P s (s.setProgram ref p')) (hagree : u.Agree (s.setProgram ref p'))
    (hcapacity : p'.buffer.capacity = p.buffer.capacity) (hused : u.used = s.used)
    (hlisted : s.Listed → u.Listed) : Edited P s size (.ok a u) := by
  have htotal := total_setProgram hp p'
  rw [← hagree.total] at htotal
  exact .ok hchange hagree (.of_same hused (by omega)) (.inl (by omega)) hlisted

theorem map {x : Edit α} (h : Edited P s size (x s)) {f : α → Edit β}
    (hf : ∀ a t, ∃ b, f a t = .ok b t) : Edited P s size ((x >>= f) s) := by
  generalize hrun : x s = r at h
  cases h with
  | ok hchange hagree hbalanced hallows hlisted =>
    obtain ⟨b, hb⟩ := hf _ _
    rw [bind_ok hrun, hb]
    exact .ok hchange hagree hbalanced hallows hlisted
  | error used hcrash =>
    rw [bind_error hrun]
    exact .error used hcrash

end Edited

theorem length_text_le_total (hp : s.program? ref = some p) : p.buffer.text.length ≤ s.total :=
  (Buffer.length_text_le_capacity p.buffer).trans (capacity_le_total hp)

/-- Beyond the greatest offset there is no text. -/
theorem maxCapacity_lt_appetite (hp : s.program? ref = some p) (hl : p.Holds ls)
    (hle : pc ≤ (textOf ls).length) (hoff : maxOffset < pc) (size : Nat) :
    maxCapacity < appetite s.options s.total size := by
  have htotal := length_text_le_total hp
  have hlen := hl.length
  simp only [maxOffset] at hoff
  simp only [maxCapacity, appetite]
  omega

theorem edited_of_inserted {answer : ProgramRef → α} {r : EStateM.Result Error Store α}
    (hp : s.program? ref = some p) (hl : p.Holds (front ++ back))
    (hline : ∀ line', s.resolved? line = some line' → P line')
    (h : Inserted s ref p front back line answer r) : Edited P s (s.storedSize line) r := by
  cases h with
  | @line line' l p' s' hres hend hwrites hs' hp' hgranted hbalanced hlisted =>
    have htotal := total_setProgram hp p'
    rw [← hs'.total] at htotal
    exact .ok (.inserted hp hl (hline _ hres) hend hwrites hp') hs' hbalanced
      (hgranted.allows 0 (capacity_le_total hp) htotal) hlisted
  | @split pre post q r s' hend hps href hs' hq hr hcapacity hgranted hbalanced hlisted =>
    have htotal := hs'.total
    simp only [total, map_append, map_cons, sum_append, sum_cons] at htotal
    refine .ok (.split hps hl hq hr) hs' hbalanced (hgranted.allows 0 (Nat.zero_le _) ?_)
      fun _ => hlisted
    simp only [total, hps, map_append, map_cons, sum_append, sum_cons]
    omega
  | refused hcrash => exact .error s.used (by simp [hcrash])
  | denied hasks hdenied =>
    have hcapacity := capacity_le_total hp
    have hlength := length_text_le_total hp
    obtain ⟨hheld, hneed⟩ := hasks.le hl
    refine .error _ (hdenied.crash (by omega) ?_)
    split at hneed <;> omega
  | unaddressable hfar =>
    exact .error s.used fun _ => maxCapacity_lt_appetite hp hl (by simp) hfar _

section

variable (hread : s.Legible) (hat : s.At ref pc k)
  (hline : ∀ line', s.resolved? line = some line' → P line')
  (hz : line.command = .number → 0 ∉ line.numberText)

include hread hat hline hz

theorem edited_insert : Edited P s (s.storedSize line) (insert ref pc line s) := by
  cases hp : s.program? ref with
  | none => exact .refused (insert_of_none hp) rfl
  | some p =>
    obtain ⟨ls, hls⟩ := hread.program? hp
    obtain ⟨front, back, rfl, hplace, -⟩ := exists_place hp hls hat
    exact edited_of_inserted hp hls hline
      (inserted_of_place hp hls hplace hz fun _ _ _ => hread.programs)

theorem edited_insertAfter : Edited P s (s.storedSize line) (insertAfter ref pc line s) := by
  cases hp : s.program? ref with
  | none => exact .refused (insertAfter_of_none hp) rfl
  | some p =>
    obtain ⟨ls, hls⟩ := hread.program? hp
    obtain ⟨front, back, rfl, hpc, -⟩ := exists_behind hp hls hat
    exact edited_of_inserted hp hls hline
      (inserted_behind hp hls hpc hz fun _ _ _ => hread.programs)

end

theorem edited_mergeNext (hread : s.Legible) (hp : s.program? ref = some p) (hl : p.Holds ls) :
    Edited P s size (mergeNext ref p s) := by
  rcases next_cases hp with ⟨pre, q, post, rfl, hps⟩ | hlast
  · have hps' : s.programs = (pre ++ [p]) ++ q :: post := by simpa using hps
    obtain ⟨back, hback⟩ := hread.program? (program?_of_split hps')
    have hsum : s.total = ((pre ++ p :: q :: post).map (·.buffer.capacity)).sum
        + (s.equations.map (·.elim 0 (·.buffer.capacity))).sum := by rw [total, hps]
    simp only [map_append, map_cons, sum_append, sum_cons] at hsum
    rcases mergeNext_cases hps hl hback hread.programs with
      ⟨r, s', hrun, hs', hr, hgranted, hbalanced, hlisted⟩ | ⟨e, used, hrun, hdenied⟩
    · have htotal := hs'.total
      simp only [total, map_append, map_cons, sum_append, sum_cons] at htotal
      rw [hrun]
      refine .ok (.joined hps hl hback hr) hs' hbalanced
        (hgranted.allows q.buffer.capacity (by omega) ?_) fun _ => hlisted
      rw [hsum]
      unfold total
      omega
    · have hlength := Buffer.length_text_le_capacity p.buffer
      have hnext := Buffer.length_text_le_capacity q.buffer
      have hlen := hback.length
      rw [hrun]
      exact .error _ (hdenied.crash (by omega) (by omega))
  · exact .refused (mergeNext_of_last hlast) rfl

theorem edited_delete (hread : s.Legible) (hat : s.At ref pc k) :
    Edited P s size (delete ref pc s) := by
  cases hp : s.program? ref with
  | none => exact .refused (delete_of_none hp) rfl
  | some p =>
    by_cases he : s.Editable p
    swap
    · exact .refused (delete_of_not_editable hp he) rfl
    obtain ⟨ls, hls⟩ := hread.program? hp
    rcases at_cases hp hls hat with ⟨rfl, -⟩ | ⟨rfl, -⟩ | ⟨front, l, back, rfl, rfl, -⟩
    · exact .refused (delete_at_top hp he) rfl
    · rw [delete_at_line hp he hls.textEnd, if_pos Line.isEnd_endLine]
      exact edited_mergeNext hread hp hls
    · by_cases hoff : ((textOf front).length : Int) ≤ maxOffset
      · obtain ⟨p', s', hrun, hs', hp', hcapacity, hused, hlisted⟩ :=
          delete_line_cases hp he hls hoff hread.programs
        rw [hrun]
        exact .rewrite hp (.deleted hp hls hp') hs' hcapacity hused hlisted
      · have hfar : maxOffset < ((textOf front).length : Int) := by omega
        rw [delete_unaddressable hp he hls hfar]
        exact .error s.used fun _ => maxCapacity_lt_appetite hp hls (by simp; omega) hfar _

theorem edited_clearProgram (hread : s.Legible) (ref : ProgramRef) :
    Edited P s size (clearProgram ref s) := by
  cases hp : s.program? ref with
  | none => exact .refused (clearProgram_of_none hp) rfl
  | some p =>
    by_cases he : s.Editable p
    · obtain ⟨ls, hls⟩ := hread.program? hp
      obtain ⟨p', s', hrun, hs', hp', hcapacity, hused, hlisted⟩ :=
        clearProgram_cases hp he fun _ _ => hread.programs
      rw [hrun]
      exact .rewrite hp (.cleared hp hls (nil_subset _) hp') hs'
        (hcapacity hls.two_le_length) hused hlisted
    · exact .refused (clearProgram_of_not_editable hp he) rfl

theorem edited_newProgram (hread : Readable s.programs) : Edited P s size (newProgram s) := by
  by_cases hlast : ∃ p, s.programs.getLast? = some p ∧ p.buffer.text.length = endBytes.length
  · obtain ⟨p, hp, ht⟩ := hlast
    rw [newProgram_of_empty hp ht]
    exact .same _
  · rw [newProgram_of_full fun p hp ht => hlast ⟨p, hp, ht⟩]
    rcases newProgram_create_cases s.programs.length hread with
      ⟨p, s', hrun, hs', hp, hgranted, hbalanced, hlisted⟩ | ⟨e, used, hrun, hdenied⟩
    · rw [hrun]
      refine .ok (.created hp) hs' hbalanced (hgranted.allows 0 (Nat.zero_le _) ?_)
        fun _ => hlisted
      rw [hs'.total]
      simp only [total, map_append, map_cons, map_nil, sum_append, sum_cons, sum_nil]
      omega
    · rw [hrun]
      exact .error _ hdenied.crash_of_empty

theorem edited_newEquationSlot (s : Store) : Edited P s size (newEquationSlot s) := by
  rcases newEquationSlot_cases s with ⟨p, hrun, hp, hgranted⟩ | ⟨e, used, hrun, hdenied⟩
  · rw [hrun]
    have htotal := s.total_opened_host p
    refine .ok (.taken hp) (.refl _) (fun _ => ?_)
      (hgranted.allows 0 (Nat.zero_le _) htotal) fun h => ⟨h.lines⟩
    rw [htotal, Nat.cast_add, add_sub_cancel_left]
    rfl
  · rw [hrun]
    exact .error _ hdenied.crash_of_empty

theorem edited_freeEquation (s : Store) (ref : ProgramRef) :
    Edited P s size (freeEquation ref s) := by
  cases ref with
  | equation i =>
    cases hp : s.program? (.equation i) with
    | none => exact .refused (freeEquation_of_none hp) rfl
    | some p =>
      by_cases hrefs : p.refs = 0
      · obtain ⟨-, hi⟩ := program?_equation_eq_some_iff.1 hp
        have hsum := sum_map_set (fun slot : Option Program => slot.elim 0 (·.buffer.capacity))
          none hi
        simp only [elim_some, elim_none] at hsum
        rw [freeEquation_eq_ok hp hrefs]
        refine .ok .freed ⟨rfl, rfl, rfl, rfl, rfl⟩ (fun _ => ?_) (.inl ?_) fun h => ⟨h.lines⟩
        · simp only [total]
          congr 1
          omega
        · simp only [total]
          omega
      · exact .refused (freeEquation_busy hp hrefs) rfl
  | none | user | solver | integrator =>
    exact .refused (freeEquation_of_not_equation (by simp)) rfl

theorem edited_invalidate (hread : s.Legible) (ref : ProgramRef) (force : Bool) :
    Edited P s size (invalidate ref force s) := by
  cases hp : s.program? ref with
  | none =>
    rw [invalidate_of_none hp]
    exact .same _
  | some p =>
    obtain ⟨ls, hls⟩ := hread.program? hp
    rw [invalidate_of_holds hp hls]
    split
    · exact .same _
    · have hforgot := Program.holds_clearAll (p := p) true hls.notEnd
      exact .rewrite hp (.cleared hp hls (List.Subset.refl _) ⟨hforgot, rfl, rfl, rfl⟩) (.refl _)
        (capacity_clearAll hls true) (used_setProgram ..) fun h => h.clearAll hp hls hforgot

end

/-! ## What requests keep -/

/-- An operation keeps a property of all programs when it succeeds, and changes no program when it
    fails. -/
def Keeps {α : Type} (Q : Nat → Program → Prop) (s : Store) : EStateM.Result Error Store α → Prop :=
  Outcome (fun _ t => t.Sound Q ∧ t.options = s.options) fun _ t => s.Agree t

variable {rules : Rules} {strict : Bool} {α : Type}

section

variable (hQ : Stable rules strict Q) (hs : s.Sound Q)

include hQ hs

theorem Sound.opened (n : Nat) : Sound Q { s with loading := n + 1 } := by
  constructor
  · intro p hp
    obtain ⟨hq, hg⟩ := hs.programs p hp
    exact ⟨hQ.opened hq, hg⟩
  · intro p hp
    obtain ⟨hq, hg⟩ := hs.equations p hp
    exact ⟨hQ.opened hq, hg⟩

theorem Sound.legible : s.Legible :=
  ⟨fun p hp => hQ.holds (hs.programs p hp).1, fun p hp => hQ.holds (hs.equations p hp).1⟩

theorem Change.sound (h : Change rules.line s t) : t.Sound Q := by
  cases h with
  | none => exact hs
  | inserted hp hl hline hend hwrites hp' =>
    exact hs.setProgram hp (hQ.inserted (hs.program? hp).1 hl hline hend hwrites hp') hp'.generated
      hp'.refs
  | deleted hp hl hp' =>
    exact hs.setProgram hp (hQ.deleted (hs.program? hp).1 hl hp') hp'.generated hp'.refs
  | cleared hp hl hls hp' =>
    exact hs.setProgram hp (hQ.cleared (fun l h => ⟨_, _, _, (hs.program? hp).1, hl, hls h⟩) hp')
      hp'.generated hp'.refs
  | @split pre post p q r front back hps hl hq hr =>
    have hsound := hs.programs
    rw [hps] at hsound
    obtain ⟨hpQ, hpg, hpr⟩ := hsound p (by simp)
    refine ⟨fun p' hp' => ?_, hs.equations⟩
    simp only [mem_append, mem_cons] at hp' hsound
    rcases hp' with h | rfl | rfl | h
    · exact hsound p' (.inl h)
    · exact ⟨hQ.cleared (fun l h => ⟨_, _, _, hpQ, hl, mem_append_left _ h⟩) hq,
        by rw [hq.generated, hpg], by rw [hq.refs, hpr]⟩
    · exact ⟨hQ.cleared (fun l h => ⟨_, _, _, hpQ, hl, mem_append_right _ h⟩) hr,
        hr.generated, hr.refs⟩
    · exact hsound p' (.inr (.inr h))
  | @joined pre post p q r front back hps hl hq hr =>
    have hsound := hs.programs
    rw [hps] at hsound
    obtain ⟨hpQ, hpg, hpr⟩ := hsound p (by simp)
    obtain ⟨hqQ, -, -⟩ := hsound q (by simp)
    refine ⟨fun p' hp' => ?_, hs.equations⟩
    simp only [mem_append, mem_cons] at hp' hsound
    rcases hp' with h | rfl | h
    · exact hsound p' (.inl h)
    · exact ⟨hQ.cleared (fun l h => (mem_append.1 h).elim (fun h => ⟨_, _, _, hpQ, hl, h⟩)
        fun h => ⟨_, _, _, hqQ, hq, h⟩) hr, by rw [hr.generated, hpg], by rw [hr.refs, hpr]⟩
    · exact hsound p' (.inr (.inr (.inr h)))
  | created hp =>
    refine ⟨fun q hq => ?_, hs.equations⟩
    rcases mem_append.1 hq with h | h
    · exact hs.programs q h
    · obtain rfl := mem_singleton.1 h
      exact ⟨hQ.empty hp, hp.generated, hp.refs⟩
  | taken hp =>
    refine ⟨hs.programs, fun q hq => ?_⟩
    rcases mem_or_eq_of_mem_set hq with h | h
    · exact hs.equations q (mem_opened h)
    · obtain rfl := some.inj h
      exact ⟨hQ.empty hp, hp.generated, hp.refs⟩
  | freed =>
    refine ⟨hs.programs, fun q hq => ?_⟩
    rcases mem_or_eq_of_mem_set hq with h | h
    · exact hs.equations q h
    · cases h

end

theorem Change.options {P : Instr → Prop} (h : Change P s t) : t.options = s.options := by
  cases h <;> first | rfl | exact options_setProgram ..

theorem Change.legible {P : Instr → Prop} (hs : s.Legible) (h : Change P s t) : t.Legible := by
  cases h with
  | none => exact hs
  | inserted hp _ _ _ _ hp' => exact hs.setProgram hp ⟨_, hp'.holds⟩
  | deleted hp _ hp' => exact hs.setProgram hp ⟨_, hp'.holds⟩
  | cleared hp _ _ hp' => exact hs.setProgram hp ⟨_, hp'.holds⟩
  | split hps _ hq hr =>
    have hread := hs.programs
    rw [hps, readable_append, readable_cons] at hread
    exact ⟨readable_append.2 ⟨hread.1, readable_cons.2 ⟨⟨_, hq.holds⟩,
      readable_cons.2 ⟨⟨_, hr.holds⟩, hread.2.2⟩⟩⟩, hs.slots⟩
  | joined hps _ _ hr =>
    have hread := hs.programs
    rw [hps, readable_append, readable_cons, readable_cons] at hread
    exact ⟨readable_append.2 ⟨hread.1, readable_cons.2 ⟨⟨_, hr.holds⟩, hread.2.2.2⟩⟩, hs.slots⟩
  | created hp =>
    exact ⟨readable_append.2 ⟨hs.programs, readable_cons.2 ⟨hp.exists_holds, by simp [Readable]⟩⟩,
      hs.slots⟩
  | taken hp =>
    refine ⟨hs.programs, fun q hq => ?_⟩
    rcases mem_or_eq_of_mem_set hq with h | h
    · exact hs.slots q (mem_opened h)
    · obtain rfl := some.inj h
      exact hp.exists_holds
  | freed =>
    refine ⟨hs.programs, fun q hq => ?_⟩
    rcases mem_or_eq_of_mem_set hq with h | h
    · exact hs.slots q h
    · cases h

theorem Edited.keeps {size : Nat} {r : EStateM.Result Error Store α} (hQ : Stable rules strict Q)
    (hs : s.Sound Q) (h : Edited rules.line s size r) : Keeps Q s r := by
  cases h with
  | ok hchange hagree =>
    exact .ok ⟨(hchange.sound hQ hs).of_agree hagree.symm, hagree.options.trans hchange.options⟩
  | error used _ => exact .error (agree_used s used)

/-- Forgetting its targets gives a program every property that is asked of it. -/
theorem Forgot.stable (hQ : Stable rules strict Q) {m : Nat} (n : Nat) (h : Forgot p p')
    (hq : Q m p) : Q n p' := by
  obtain ⟨ls, hls, hp', -⟩ := h
  exact hQ.cleared (fun l hl => ⟨m, p, ls, hq, hls, hl⟩) hp'

theorem Forgot.same (h : Forgot p p') : p'.generated = p.generated ∧ p'.refs = p.refs := by
  obtain ⟨ls, -, hp', -⟩ := h
  exact ⟨hp'.generated, hp'.refs⟩

theorem keeps_endBulkLoad (hQ : Stable rules strict Q) (hs : s.Sound Q) :
    Keeps Q s (endBulkLoad s) := by
  by_cases h0 : s.loading = 0
  · rw [endBulkLoad_of_zero h0]
    exact .ok ⟨hs, rfl⟩
  by_cases h1 : s.loading = 1
  · obtain ⟨ps, es, s', hrun, hs', hps, hes, -⟩ := endBulkLoad_last h1
      (hs.legible hQ).programs (hs.legible hQ).slots
    rw [hrun]
    refine .ok ⟨.of_agree ⟨fun p' hp' => ?_, fun p' hp' => ?_⟩ hs'.symm, hs'.options⟩
    · obtain ⟨p, hp, hforgot⟩ := exists_left_of_mem hps hp'
      obtain ⟨hq, hg, hr⟩ := hs.programs p hp
      exact ⟨hforgot.stable hQ 0 hq, hforgot.same.1.trans hg, hforgot.same.2.trans hr⟩
    · obtain ⟨slot, hp, hslot⟩ := exists_left_of_mem hes hp'
      cases hslot with
      | some hforgot =>
        obtain ⟨hq, hg, hr⟩ := hs.equations _ hp
        exact ⟨hforgot.stable hQ 0 hq, hforgot.same.1.trans hg, hforgot.same.2.trans hr⟩
  · obtain ⟨n, hn⟩ : ∃ n, s.loading - 1 = n + 1 := ⟨s.loading - 2, by omega⟩
    rw [endBulkLoad_inner (by omega), hn]
    exact .ok ⟨hs.opened hQ n, rfl⟩

theorem resolveTarget_of_none (hp : s.program? ref = none) :
    resolveTarget ref pc s = .error (.invalidProgram ref) s := by
  unfold resolveTarget
  rw [bind_error (getProgram_of_none hp)]

theorem resolveTarget_of_unread {e : InstrFault} (hp : s.program? ref = some p)
    (he : decodeAt p.buffer.text pc = .error e) :
    resolveTarget ref pc s = .error (.ofInstrFault e) s := by
  unfold resolveTarget
  rw [bind_ok (getProgram_of_some hp)]
  rw [he]
  rfl

/-- Looking up the target of a line changes that line only. -/
theorem keeps_resolveTarget_line (hQ : Stable rules s.options.strictLabels Q) (hs : s.Sound Q)
    (hlook : rules.lookups) {l : Line} (hp : s.program? ref = some p)
    (hl : p.Holds (front ++ l :: back)) (hoff : ((textOf front).length : Int) ≤ maxOffset) :
    Keeps Q s (resolveTarget ref (textOf front).length s) := by
  by_cases hknown : hasJumpCache l.instr.command l.instr.operand.kind = false ∨
      l.target ≠ targetUnknown
  · rw [resolveTarget_of_known hp hl.textAt hoff hknown]
    exact .ok ⟨hs, rfl⟩
  · simp only [not_or, not_not, Bool.not_eq_false] at hknown
    obtain ⟨hc, hu⟩ := hknown
    rw [resolveTarget_of_unknown hp hl.textAt hoff hc hu]
    cases hfresh : freshTarget s.options.strictLabels p.buffer.text (textOf front).length l.instr
        l.size with
    | error e => exact .error (.refl s)
    | ok t =>
      obtain ⟨hcached, hq'⟩ := hQ.lookedUp hlook (hs.program? hp).1 hl hc hu hfresh
      simp only
      rw [hl.textAt, writeTarget_append _ _ t hcached]
      exact .ok ⟨hs.setProgram hp (by simpa using hq') rfl rfl, options_setProgram ..⟩

theorem keeps_resolveTarget (hQ : Stable rules s.options.strictLabels Q) (hs : s.Sound Q)
    (hlook : rules.lookups) (hat : s.At ref pc k) : Keeps Q s (resolveTarget ref pc s) := by
  cases hp : s.program? ref with
  | none =>
    rw [resolveTarget_of_none hp]
    exact .error (.refl s)
  | some p =>
    obtain ⟨ls, hls⟩ := hQ.holds (hs.program? hp).1
    by_cases hoff : pc ≤ maxOffset
    · rcases at_cases hp hls hat with ⟨rfl, -⟩ | ⟨rfl, -⟩ | ⟨front, l, back, rfl, rfl, -⟩
      · rw [resolveTarget_of_unread hp rfl]
        exact .error (.refl s)
      · rw [resolveTarget_of_known hp hls.textEnd hoff (.inl rfl)]
        exact .ok ⟨hs, rfl⟩
      · exact keeps_resolveTarget_line hQ hs hlook hp hls hoff
    · have he : decodeAt p.buffer.text pc = .error .unaddressable := by
        rw [decodeAt, if_pos (by omega)]
      rw [resolveTarget_of_unread hp he]
      exact .error (.refl s)

end Store

/-! ## What sequences of requests keep -/

variable {rules : Rules} {Q : Nat → Program → Prop} {s : Store} {r : Request}

/-- Requests that change programs and slots, other than by looking up a target or ending a bulk
    load. -/
def Request.isEdit : Request → Bool
  | beginBulkLoad | endBulkLoad | openGenerated | closeGenerated | resolve .. => false
  | _ => true

/-- The bytes of a line that is put in. -/
def Request.size (s : Store) : Request → Nat
  | insert _ _ line | insertAfter _ _ line => s.storedSize line
  | _ => 0

theorem Request.run_edited (hread : s.Legible) (hr : r.Obeys rules s) (hedit : r.isEdit = true)
    (hrules : ∀ line line', rules.line line → s.resolved? line = some line' → rules.line line')
    (hspelled : ∀ line, rules.line line → line.command = .number → 0 ∉ line.numberText) :
    s.Edited rules.line (r.size s) (r.run s) := by
  cases r with
  | newProgram => exact (Store.edited_newProgram hread.programs).map fun _ _ => ⟨_, rfl⟩
  | newEquationSlot => exact (Store.edited_newEquationSlot s).map fun _ _ => ⟨_, rfl⟩
  | freeEquation ref => exact (Store.edited_freeEquation s ref).map fun _ _ => ⟨_, rfl⟩
  | insert ref pc line =>
    obtain ⟨⟨k, hat⟩, hline⟩ := hr
    exact (Store.edited_insert hread hat (fun _ => hrules _ _ hline) (hspelled _ hline)).map
      fun _ _ => ⟨_, rfl⟩
  | insertAfter ref pc line =>
    obtain ⟨⟨k, hat⟩, hline⟩ := hr
    exact (Store.edited_insertAfter hread hat (fun _ => hrules _ _ hline) (hspelled _ hline)).map
      fun _ _ => ⟨_, rfl⟩
  | delete ref pc =>
    obtain ⟨k, hat⟩ := hr
    exact (Store.edited_delete hread hat).map fun _ _ => ⟨_, rfl⟩
  | clearProgram ref => exact (Store.edited_clearProgram hread ref).map fun _ _ => ⟨_, rfl⟩
  | invalidate ref force =>
    exact (Store.edited_invalidate hread ref force).map fun _ _ => ⟨_, rfl⟩
  | beginBulkLoad | endBulkLoad | openGenerated | closeGenerated | resolve => cases hedit

theorem Request.run_keeps (hQ : Stable rules s.options.strictLabels Q) (hs : s.Sound Q)
    (hr : r.Obeys rules s) : Store.Keeps Q s (r.run s) := by
  cases hedit : r.isEdit with
  | true =>
    exact (r.run_edited (hs.legible hQ) hr hedit (fun _ _ => hQ.resolved) fun _ => hQ.spelled).keeps
      hQ hs
  | false =>
    cases r with
    | beginBulkLoad => exact .ok ⟨hs.opened hQ _, rfl⟩
    | endBulkLoad => exact (Store.keeps_endBulkLoad hQ hs).bind fun _ _ h => .ok h
    | openGenerated | closeGenerated => exact .ok ⟨⟨hs.programs, hs.equations⟩, rfl⟩
    | resolve ref pc =>
      obtain ⟨hlook, k, hat⟩ := hr
      exact (Store.keeps_resolveTarget hQ hs hlook hat).bind fun _ _ h => .ok h
    | _ => cases hedit

theorem Store.Sound.of_new (hQ : Stable rules s.options.strictLabels Q) {options : Options}
    (h : Store.new options = .ok s) : s.Sound Q := by
  obtain ⟨-, hes, -, -, hps, -⟩ := new_cases h
  constructor
  · intro p hp
    rcases hps with ⟨q, hps, hq⟩ | ⟨hps, -⟩
    · rw [hps, mem_singleton] at hp
      subst hp
      exact ⟨hQ.empty hq, hq.generated, hq.refs⟩
    · exact absurd hp (by simp [hps])
  · intro p hp
    exact absurd hp (by simp [hes])

theorem Reachable.sound {options : Options} (hQ : Stable rules options.strictLabels Q)
    (h : Reachable rules options s) : s.Sound Q ∧ s.options = options.normalize := by
  induction h with
  | new h =>
    have ho := (Store.new_cases h).1
    exact ⟨.of_new (by rw [ho]; exact hQ) h, ho⟩
  | ok _ hr hrun ih =>
    obtain ⟨hs, ho⟩ := ih
    have hkeeps := Request.run_keeps (by rw [ho]; exact hQ) hs hr
    rw [hrun] at hkeeps
    cases hkeeps with
    | ok h => exact ⟨h.1, h.2.trans ho⟩
  | error _ hr hrun ih =>
    obtain ⟨hs, ho⟩ := ih
    have hkeeps := Request.run_keeps (by rw [ho]; exact hQ) hs hr
    rw [hrun] at hkeeps
    cases hkeeps with
    | error h => exact ⟨hs.of_agree h, h.options.symm.trans ho⟩

end Keystroke
