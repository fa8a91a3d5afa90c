import Keystroke.Proofs.Compile.Atomic
import Keystroke.Proofs.Compile.Ownership

set_option autoImplicit false

/-! # Keeping account of slots

A ledger lists the slots that have been taken since some earlier store, with the memory that they
count for (`Store.Ledger`). Compiling an expression adds its slot to the list or leaves the list as
it is, and freeing an equation takes its slots off. When the list is empty again, the count of
memory is what it was. -/

namespace Keystroke

open Operation List

namespace Store

/-! ## Ledgers -/

/-- The capacity of the buffer of a program; nothing if there is no such program. -/
def capacityOf (s : Store) (ref : ProgramRef) : Int :=
  ((s.program? ref).map (·.buffer.capacity)).getD 0

/-- The second store is the first but for the slots that are held: they were free, no return into
    them is pending, and they are counted on top. -/
structure Ledger (s0 : Store) (held : List ProgramRef) (s : Store) : Prop where
  rest : s = { s0 with used := s.used, equations := s.equations }
  nodup : held.Nodup
  taken : ∀ ref ∈ held, ∃ (k : Nat) (p : Program), ref = .equation k ∧ s0.slot? k = none ∧
    s.slot? k = some p ∧ p.refs = 0
  others : ∀ k : Nat, .equation k ∉ held → s.slot? k = s0.slot? k
  used : s.used = inWord (s0.used + (held.map s.capacityOf).sum)

section

variable {s0 s t : Store} {held more : List ProgramRef} {ref : ProgramRef} {names : NameTable}

theorem Ledger.start (hword : inWord s.used = s.used) : s.Ledger [] s where
  rest := rfl
  nodup := .nil
  taken := nofun
  others _ _ := rfl
  used := by simp [hword]

section

variable (h : s0.Ledger held s)

include h

theorem Ledger.perm (hperm : held.Perm more) : s0.Ledger more s where
  rest := h.rest
  nodup := hperm.nodup h.nodup
  taken ref hmem := h.taken ref (hperm.mem_iff.2 hmem)
  others k hk := h.others k fun hmem => hk (hperm.mem_iff.1 hmem)
  used := by rw [h.used, (hperm.map _).sum_eq]

theorem Ledger.word : inWord s.used = s.used := by
  have hidem := inWord_add_inWord (s0.used + (held.map s.capacityOf).sum) 0
  rwa [Int.add_zero, Int.add_zero, ← h.used] at hidem

theorem Ledger.edits : s.edits = s0.edits := by rw [h.rest]

theorem Ledger.rest_with (used : Int) (equations : List (Option Program)) :
    { s with used := used, equations := equations }
      = { s0 with used := used, equations := equations } :=
  congrArg (fun s : Store => { s with used := used, equations := equations }) h.rest

/-- The slots that are held count for as much in a store that has the same programs in them. -/
theorem Ledger.sum_capacityOf (hmore : ∀ ref ∈ more, ref ∈ held)
    (hsame : ∀ k : Nat, .equation k ∈ more → t.slot? k = s.slot? k) :
    (more.map t.capacityOf).sum = (more.map s.capacityOf).sum := by
  refine congrArg sum (map_congr_left fun ref hmem => ?_)
  obtain ⟨k, -, rfl, -⟩ := h.taken ref (hmore ref hmem)
  rw [capacityOf, capacityOf, show t.program? _ = s.program? _ from hsame k hmem]

theorem Ledger.opened : s0.Ledger held s.opened where
  rest := h.rest_with s.used s.opened.equations
  nodup := h.nodup
  taken ref hmem := by
    simp only [slot?_opened]
    exact h.taken ref hmem
  others k hk := (s.slot?_opened k).trans (h.others k hk)
  used := by
    rw [h.sum_capacityOf (fun _ => id) fun k _ => s.slot?_opened k]
    exact h.used

theorem Ledger.take {p : Program} (hrefs : p.refs = 0) :
    s0.Ledger (.equation s.freeSlot :: held) (s.opened.host s.freeSlot p) := by
  have hnew : ProgramRef.equation s.freeSlot ∉ held := by
    intro hmem
    obtain ⟨k, p, hk, -, hp, -⟩ := h.taken _ hmem
    obtain rfl : s.freeSlot = k := by simpa using hk
    rw [slot?_freeSlot] at hp
    cases hp
  have hown : (s.opened.host s.freeSlot p).slot? s.freeSlot = some p := program?_host s.freeSlot_lt
  have hold {k : Nat} (hk : k ≠ s.freeSlot) :
      (s.opened.host s.freeSlot p).slot? k = s.slot? k := by
    rw [slot?_host_ne hk, slot?_opened]
  have hheld (k : Nat) (hmem : .equation k ∈ held) :
      (s.opened.host s.freeSlot p).slot? k = s.slot? k :=
    hold fun hk => hnew (hk ▸ hmem)
  refine ⟨h.rest_with _ _, nodup_cons.2 ⟨hnew, h.nodup⟩, ?_, ?_, ?_⟩
  · intro ref hmem
    rcases mem_cons.1 hmem with rfl | hmem
    · exact ⟨_, p, rfl, (h.others _ hnew).symm.trans s.slot?_freeSlot, hown, hrefs⟩
    · obtain ⟨k, q, rfl, hfree, hq, hq'⟩ := h.taken ref hmem
      exact ⟨k, q, rfl, hfree, (hheld k hmem).trans hq, hq'⟩
  · intro k hk
    rw [mem_cons, not_or] at hk
    rw [hold fun he => hk.1 (by rw [he])]
    exact h.others k hk.2
  · have hcount : (s.opened.host s.freeSlot p).capacityOf (.equation s.freeSlot)
        = p.buffer.capacity := by
      rw [capacityOf, show (s.opened.host s.freeSlot p).program? _ = some p from hown]
      rfl
    rw [map_cons, sum_cons, hcount, h.sum_capacityOf (fun _ => id) hheld]
    change inWord (s.used + _) = _
    rw [h.used, inWord_add_inWord]
    congr 1
    omega

end

theorem Ledger.release (h : s0.Ledger (ref :: held) s) :
    ∃ t, freeEquation ref s = .ok () t ∧ s0.Ledger held t := by
  obtain ⟨k, p, rfl, hfree, hp, hrefs⟩ := h.taken ref mem_cons_self
  obtain ⟨hnew, hnodup⟩ := nodup_cons.1 h.nodup
  refine ⟨_, freeEquation_eq_ok hp hrefs, ?_⟩
  set t : Store := { s with
    used := inWord (s.used - p.buffer.capacity)
    equations := s.equations.set ((k : Int).toNat) none } with ht
  have hown : t.slot? k = none := by
    obtain ⟨hlt, -⟩ := List.getElem?_eq_some_iff.1 (slot?_eq_some_iff.1 hp)
    rw [slot?_of_getElem?, ht, Int.toNat_natCast, getElem?_set_self hlt]
    rfl
  have hold {j : Nat} (hj : j ≠ k) : t.slot? j = s.slot? j := by
    rw [slot?_of_getElem?, slot?_of_getElem?, ht, Int.toNat_natCast, getElem?_set_ne hj.symm]
  have hheld (j : Nat) (hmem : .equation j ∈ held) : t.slot? j = s.slot? j :=
    hold fun hj => hnew (hj ▸ hmem)
  refine ⟨h.rest_with _ _, hnodup, ?_, ?_, ?_⟩
  · intro ref hmem
    obtain ⟨j, q, rfl, hfree, hq, hq'⟩ := h.taken ref (mem_cons_of_mem _ hmem)
    exact ⟨j, q, rfl, hfree, (hheld j hmem).trans hq, hq'⟩
  · intro j hj
    by_cases hjk : j = k
    · rw [hjk, hown, hfree]
    · rw [hold hjk]
      refine h.others j fun hmem => ?_
      rcases mem_cons.1 hmem with he | hmem
      · exact hjk (by simpa using he)
      · exact hj hmem
  · have hcount : s.capacityOf (.equation k) = p.buffer.capacity := by
      rw [capacityOf, show s.program? (.equation k) = some p from hp]
      rfl
    rw [h.sum_capacityOf (fun _ hmem => mem_cons_of_mem _ hmem) hheld]
    change inWord (s.used - _) = _
    rw [h.used, inWord_sub_inWord, map_cons, sum_cons, hcount]
    congr 1
    omega

/-! ## Compiling -/

/-- A store with the same settings has refused to compile the expression. -/
def Refuses (s0 : Store) (names : NameTable) (e : Expr) : Prop :=
  ∃ (s : Store) (cause : Error) (t : Store), s.options = s0.options ∧
    e.compile names s = .error cause t

/-- Compiling an expression adds its slot, unless it is refused. -/
theorem Ledger.compile (h : s0.Ledger held s) (hlabels : labelTable 0 s0.programs = .ok s0.labels)
    {e : Expr} (hsize : ¬ s0.options.Exceeded (s0.compiledSize names e)) :
    Outcome (fun ref t => s0.Ledger (ref :: held) t ∧ e.Emits names)
      (fun cause t => cause.isCrash = false ∧ s0.Ledger held t ∧ s0.Refuses names e)
      (e.compile names s) := by
  have hlabels' : labelTable 0 s.programs = .ok s.labels := by
    rw [h.rest]
    exact hlabels
  have hsize' : ¬ s.options.Exceeded (s.compiledSize names e) := by
    rw [h.rest]
    exact hsize
  have hcompiles := Expr.compile_accounts hlabels' h.word names e
  generalize hrun : e.compile names s = r at hcompiles
  cases hcompiles with
  | taken hrefs hemits => exact .ok ⟨h.take hrefs, hemits⟩
  | refused hcause hs =>
    refine .error ⟨hcause, ?_, s, _, _, by rw [h.rest], hrun⟩
    rcases hs with rfl | rfl
    · exact h
    · exact h.opened
  | overgrown hgrown => exact absurd hgrown hsize'

end

end Store

namespace Equation

open Store

variable {s0 s : Store} {held : List ProgramRef} {names : NameTable} {e : Equation}

theorem ledger_compile (h : s0.Ledger held s) (hlabels : labelTable 0 s0.programs = .ok s0.labels)
    (hnew : e.slots = []) (hsize : ¬ s0.options.Exceeded (s0.compiledSize names e.tree)) :
    Outcome (fun e' t => s0.Ledger (e'.slots ++ held) t ∧ e'.program ≠ .none ∧
        e' = { e with names := names, program := e'.program } ∧ e.tree.Emits names)
      (fun cause t => cause.isCrash = false ∧ s0.Ledger held t ∧ s0.Refuses names e.tree)
      (e.compile names s) := by
  obtain ⟨hsolutions, hprogram⟩ := append_eq_nil_iff.1 hnew
  have hprogram : e.program = .none := by simpa using hprogram
  unfold compile
  rw [if_neg (by simp [hprogram])]
  refine (h.compile hlabels hsize).bind fun ref t ht => .ok ?_
  obtain ⟨k, p, rfl, -⟩ := ht.1.taken ref mem_cons_self
  simpa [slots, hsolutions] using ht

/-- What was compiled for a variable is what the equation gives for it. -/
def Solved (e : Equation) : Prop := ∀ name ref, Assoc.find? e.solutions name = some ref →
  ∃ tree, e.tree.isolate name = .ok tree ∧ tree.Emits e.names

/-- Solving an equation for a variable adds the slot of the solution, or none if it was solved for
    the variable before. -/
theorem ledger_solveFor (h : s0.Ledger (e.slots ++ held) s) (hprogram : e.program ≠ .none)
    (hsolved : e.Solved) (hlabels : labelTable 0 s0.programs = .ok s0.labels) (name : Bytes)
    (hsize : ∀ tree, e.tree.isolate name = .ok tree →
      ¬ s0.options.Exceeded (s0.compiledSize e.names tree)) :
    Outcome (fun r t => s0.Ledger (r.2.slots ++ held) t ∧
        r.2 = { e with solutions := r.2.solutions } ∧ r.2.Solved ∧
        ∃ tree, e.tree.isolate name = .ok tree ∧ tree.Emits e.names)
      (fun _ t => s0.Ledger (e.slots ++ held) t ∧ ∀ tree, e.tree.isolate name = .ok tree →
        s0.Refuses e.names tree) (e.solveFor name s) := by
  unfold solveFor
  rw [if_neg hprogram]
  cases hfind : Assoc.find? e.solutions name with
  | some ref => exact .ok ⟨h, rfl, hsolved, hsolved name ref hfind⟩
  | none =>
    cases htree : e.tree.isolate name with
    | error cause => exact .error ⟨h, nofun⟩
    | ok tree =>
      change Outcome _ _ ((tree.compile e.names >>= _) s)
      refine Outcome.bind ((h.compile hlabels (hsize tree htree)).imp (fun _ _ => id) ?_)
        fun ref t ht => .ok ⟨?_, rfl, fun other ref' hother => ?_, tree, rfl, ht.2⟩
      · rintro _ _ ⟨-, ht, hrefuses⟩
        refine ⟨ht, fun tree' htree' => ?_⟩
        obtain rfl := Except.ok.inj htree'
        exact hrefuses
      · exact ht.1.perm ((slots_put hprogram hfind ref).append_right held).symm
      · rw [Assoc.find?_put] at hother
        split at hother
        · next hname => exact ⟨tree, hname ▸ htree, ht.2⟩
        · exact hsolved other ref' hother

/-! ## Freeing -/

theorem ledger_freeSolutions (m : Assoc Bytes ProgramRef) (h : s0.Ledger (m.map (·.2) ++ held) s) :
    s0.Ledger held (freeSolutions m s).2.2 := by
  induction m generalizing s with
  | nil => exact h
  | cons solution rest ih =>
    obtain ⟨t, hrun, ht⟩ := h.release
    simp only [freeSolutions, hrun]
    exact ih ht

/-- Freeing an equation takes all its slots off. -/
theorem ledger_free (h : s0.Ledger (e.slots ++ held) s) (hnone : e.program = .none → e.slots = []) :
    s0.Ledger held (e.free s).2.2 := by
  unfold free
  by_cases hprogram : e.program = .none
  · rw [if_pos hprogram]
    rwa [hnone hprogram] at h
  · rw [slots, if_neg hprogram, append_assoc] at h
    obtain ⟨t, hrun, ht⟩ := (ledger_freeSolutions e.solutions h).release
    simp only [if_neg hprogram, hrun]
    exact ht

theorem ledger_freeAll {es : List Equation} (h : s0.Ledger (es.flatMap slots ++ held) s)
    (hnone : ∀ e ∈ es, e.program = .none → e.slots = []) : s0.Ledger held (freeAll es s) := by
  induction es generalizing s with
  | nil => exact h
  | cons e es ih =>
    obtain ⟨he, hes⟩ := forall_mem_cons.1 hnone
    rw [flatMap_cons, append_assoc] at h
    exact ih (ledger_free h he) hes

end Equation

end Keystroke
