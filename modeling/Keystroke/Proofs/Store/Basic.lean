import Keystroke.Proofs.Store.Search
import Keystroke.Store.Edit

set_option autoImplicit false

/-! # Programs, slots and memory

How operations on the store are run step by step, what replacing one program leaves alone, and what
the operations that only take memory or rebuild tables do: they change neither programs nor slots
(`Store.Agree`), and fail only for lack of memory (`Store.Denied`). What is counted as memory in use
goes with the capacities of the buffers (`Store.Balanced`). -/

namespace Keystroke

open Option

variable {i : Int} {s : Store} {p : Program} {ref : ProgramRef}

/-- A program with another text in the same buffer. -/
def Program.withText (p : Program) (text : Bytes) (cachesClear : Bool) : Program :=
  { p with buffer := { p.buffer with text := text }, cachesClear := cachesClear }

/-! ## Running operations -/

namespace Operation

variable {σ α β : Type} {x : EStateM Error σ α} {f : α → EStateM Error σ β} {s s' : σ}

theorem bind_ok {a : α} (h : x s = .ok a s') : (x >>= f) s = f a s' := by
  simp only [bind, EStateM.bind, h]

theorem bind_error {e : Error} (h : x s = .error e s') : (x >>= f) s = .error e s' := by
  simp only [bind, EStateM.bind, h]

@[simp]
theorem get_bind (g : σ → EStateM Error σ β) : (get >>= g) s = g s s := rfl

@[simp]
theorem modify_bind (g : σ → σ) (k : Unit → EStateM Error σ β) :
    ((modify g : EStateM Error σ Unit) >>= k) s = k () (g s) := rfl

@[simp]
theorem set_bind (t : σ) (k : PUnit → EStateM Error σ β) :
    ((set t : EStateM Error σ PUnit) >>= k) s = k ⟨⟩ t := rfl

@[simp]
theorem pure_bind_apply (a : α) : ((pure a : EStateM Error σ α) >>= f) s = f a s := rfl

@[simp]
theorem throw_bind (e : Error) : ((throw e : EStateM Error σ α) >>= f) s = .error e s := rfl

@[simp]
theorem pure_apply (a : α) : (pure a : EStateM Error σ α) s = .ok a s := rfl

@[simp]
theorem throw_apply (e : Error) : (throw e : EStateM Error σ α) s = .error e s := rfl

/-- Whether an operation gives a result can be computed. -/
instance decidableEqOk [DecidableEq σ] [DecidableEq α] (r : EStateM.Result Error σ α) (a : α)
    (s : σ) : Decidable (r = .ok a s) :=
  match r with
  | .ok b t => decidable_of_iff (b = a ∧ t = s) (by rw [EStateM.Result.ok.injEq])
  | .error _ _ => isFalse (by simp)

/-! ### How operations end -/

/-- An operation ends in a state that its answer fits, or fails in one that its error fits. -/
inductive Outcome (Q : α → σ → Prop) (E : Error → σ → Prop) : EStateM.Result Error σ α → Prop
  | ok {a : α} {s : σ} : Q a s → Outcome Q E (.ok a s)
  | error {e : Error} {s : σ} : E e s → Outcome Q E (.error e s)

namespace Outcome

variable {Q Q' : α → σ → Prop} {R : β → σ → Prop} {E E' : Error → σ → Prop}

theorem imp {r : EStateM.Result Error σ α} (h : Outcome Q E r) (hQ : ∀ a s, Q a s → Q' a s)
    (hE : ∀ e s, E e s → E' e s) : Outcome Q' E' r := by
  cases h with
  | ok h => exact .ok (hQ _ _ h)
  | error h => exact .error (hE _ _ h)

theorem bind (hx : Outcome Q E (x s)) (hf : ∀ a s', Q a s' → Outcome R E (f a s')) :
    Outcome R E ((x >>= f) s) := by
  generalize hrun : x s = r at hx
  cases hx with
  | ok h =>
    rw [bind_ok hrun]
    exact hf _ _ h
  | error h =>
    rw [bind_error hrun]
    exact .error h

end Outcome

/-- The state in which an operation ends, also when it fails. -/
def state : EStateM.Result Error σ α → σ
  | .ok _ s => s
  | .error _ s => s

theorem Outcome.state {Q : α → σ → Prop} {E : Error → σ → Prop} {P : σ → Prop}
    {r : EStateM.Result Error σ α} (h : Outcome Q E r) (hQ : ∀ a s, Q a s → P s)
    (hE : ∀ e s, E e s → P s) : P (Operation.state r) := by
  cases h with
  | ok h => exact hQ _ _ h
  | error h => exact hE _ _ h

/-- From states with one property the operation ends in states with another. -/
def Leads (P : σ → Prop) (x : EStateM Error σ α) (Q : σ → Prop) : Prop :=
  ∀ s, P s → Q (state (x s))

theorem Leads.bind {P Q : σ → Prop} {x : EStateM Error σ α} {f : α → EStateM Error σ β}
    (hx : Leads P x Q) (hf : ∀ a, Leads Q (f a) Q) : Leads P (x >>= f) Q := by
  intro s hs
  have hq := hx s hs
  cases h : x s with
  | ok a s' =>
    rw [h] at hq
    rw [bind_ok h]
    exact hf a s' hq
  | error e s' =>
    rw [h] at hq
    rw [bind_error h]
    exact hq

theorem Leads.pure {P : σ → Prop} (a : α) : Leads P (pure a : EStateM Error σ α) P :=
  fun _ hs => hs

end Operation

namespace Edit

variable {α : Type}

@[simp]
theorem ofExcept_ok (a : α) : Edit.ofExcept (.ok a) s = .ok a s := rfl

@[simp]
theorem ofExcept_error (e : Error) : (Edit.ofExcept (.error e) : Edit α) s = .error e s := rfl

end Edit

/-! ## Capacity -/

namespace Buffer

variable {b : Buffer} {bytes : Bytes} {place extra : Nat}

theorem length_text_le_capacity (b : Buffer) : b.text.length ≤ b.capacity := by
  unfold capacity
  omega

@[simp]
theorem capacity_empty (n : Nat) : (empty n).capacity = n := by
  simp [capacity, empty]

theorem capacity_grow {n : Nat} (h : b.text.length ≤ n) : (b.grow n).capacity = n := by
  simp only [capacity, grow, List.length_nil]
  omega

theorem capacity_insertAt (offset : Nat) (h : b.text.length + bytes.length ≤ b.capacity) :
    (b.insertAt offset bytes).capacity = b.capacity := by
  simp only [capacity] at h
  simp only [capacity, insertAt, List.length_append, List.length_take, List.length_drop]
  omega

@[simp]
theorem length_text_insertAt (offset : Nat) :
    (b.insertAt offset bytes).text.length = b.text.length + bytes.length := by
  simp only [insertAt, List.length_append, List.length_take, List.length_drop]
  omega

theorem capacity_truncate (offset : Nat) : (b.truncate offset).capacity = b.capacity := by
  simp only [capacity, truncate, List.length_append, List.length_take, List.length_drop]
  omega

theorem room_truncate (h : place + extra ≤ b.text.length) :
    (b.truncate place).text.length + extra ≤ (b.truncate place).capacity := by
  rw [capacity_truncate]
  simp only [truncate, capacity, List.length_take]
  omega

theorem capacity_append (h : b.text.length + bytes.length ≤ b.capacity) :
    (b.append bytes).capacity = b.capacity := by
  simp only [capacity] at h
  simp only [capacity, append, List.length_append, List.length_drop]
  omega

theorem capacity_removeAt (h : place + extra ≤ b.text.length) :
    (b.removeAt place extra).capacity = b.capacity := by
  simp only [capacity, removeAt, List.length_append, List.length_take, List.length_drop]
  omega

end Buffer

namespace Store

/-! ## Replacing a program -/

theorem at?_eq_some_iff {α : Type} {xs : List α} {a : α} :
    at? xs i = some a ↔ 0 ≤ i ∧ xs[i.toNat]? = some a := by
  unfold at?
  split
  · next h =>
    constructor
    · intro hs
      exact absurd hs (by simp)
    · intro hs
      omega
  · next h => exact ⟨fun hs => ⟨by omega, hs⟩, fun hs => hs.2⟩

theorem program?_user_eq_some_iff :
    s.program? (.user i) = some p ↔ 0 ≤ i ∧ s.programs[i.toNat]? = some p :=
  at?_eq_some_iff

theorem program?_equation_eq_some_iff :
    s.program? (.equation i) = some p ↔ 0 ≤ i ∧ s.equations[i.toNat]? = some (some p) := by
  rw [program?, join_eq_some_iff, at?_eq_some_iff]

theorem program?_setProgram_self (q : Program) (hp : s.program? ref = some p) :
    (s.setProgram ref q).program? ref = some q := by
  cases ref with
  | user i =>
    obtain ⟨h0, hi⟩ := program?_user_eq_some_iff.1 hp
    have hlt : i.toNat < s.programs.length := (List.getElem?_eq_some_iff.1 hi).1
    refine program?_user_eq_some_iff.2 ⟨h0, ?_⟩
    simp [setProgram, hlt]
  | equation i =>
    obtain ⟨h0, hi⟩ := program?_equation_eq_some_iff.1 hp
    have hlt : i.toNat < s.equations.length := (List.getElem?_eq_some_iff.1 hi).1
    refine program?_equation_eq_some_iff.2 ⟨h0, ?_⟩
    simp [setProgram, hlt]
  | none | solver | integrator => cases hp

theorem program?_setProgram_ne {ref' : ProgramRef} (q : Program) (hp : s.program? ref = some p)
    (hne : ref' ≠ ref) : (s.setProgram ref q).program? ref' = s.program? ref' := by
  cases ref with
  | user i =>
    obtain ⟨h0, -⟩ := program?_user_eq_some_iff.1 hp
    cases ref' with
    | user j =>
      have hij : j ≠ i := fun h => hne (by rw [h])
      simp only [setProgram, program?, at?]
      split
      · rfl
      · rw [List.getElem?_set_ne (by omega)]
    | _ => rfl
  | equation i =>
    obtain ⟨h0, -⟩ := program?_equation_eq_some_iff.1 hp
    cases ref' with
    | equation j =>
      have hij : j ≠ i := fun h => hne (by rw [h])
      simp only [setProgram, program?, at?]
      split
      · rfl
      · rw [List.getElem?_set_ne (by omega)]
    | _ => rfl
  | none | solver | integrator => cases hp

/-- A note of a pending return is made or taken back. -/
def Notes (s t : Store) : Prop :=
  t = s ∨ ∃ ref p n, s.program? ref = some p ∧ t = s.setProgram ref { p with refs := n }

theorem notes_retain (s : Store) (ref : ProgramRef) : s.Notes (s.retain ref) := by
  unfold retain
  split
  · next p hp => exact .inr ⟨ref, p, _, hp, rfl⟩
  · exact .inl rfl

theorem notes_release (s : Store) (ref : ProgramRef) : s.Notes (s.release ref) := by
  unfold release
  split
  · next p hp => exact .inr ⟨ref, p, _, hp, rfl⟩
  · exact .inl rfl

theorem setProgram_self (hp : s.program? ref = some p) : s.setProgram ref p = s := by
  cases ref with
  | user i =>
    obtain ⟨-, hi⟩ := program?_user_eq_some_iff.1 hp
    obtain ⟨hlt, hget⟩ := List.getElem?_eq_some_iff.1 hi
    simp only [setProgram, ← hget, List.set_getElem_self]
  | equation i =>
    obtain ⟨-, hi⟩ := program?_equation_eq_some_iff.1 hp
    obtain ⟨hlt, hget⟩ := List.getElem?_eq_some_iff.1 hi
    simp only [setProgram, ← hget, List.set_getElem_self]
  | none | solver | integrator => rfl

@[simp]
theorem setProgram_setProgram (s : Store) (ref : ProgramRef) (p q : Program) :
    (s.setProgram ref p).setProgram ref q = s.setProgram ref q := by
  cases ref <;> simp [setProgram]

@[simp]
theorem options_setProgram (s : Store) (ref : ProgramRef) (p : Program) :
    (s.setProgram ref p).options = s.options := by
  cases ref <;> rfl

@[simp]
theorem loading_setProgram (s : Store) (ref : ProgramRef) (p : Program) :
    (s.setProgram ref p).loading = s.loading := by
  cases ref <;> rfl

@[simp]
theorem used_setProgram (s : Store) (ref : ProgramRef) (p : Program) :
    (s.setProgram ref p).used = s.used := by
  cases ref <;> rfl

theorem getProgram_of_some (hp : s.program? ref = some p) : getProgram ref s = .ok p s := by
  simp only [getProgram, hp]

theorem getProgram_of_none (hp : s.program? ref = none) :
    getProgram ref s = .error (.invalidProgram ref) s := by
  simp only [getProgram, hp]

/-! ## Stores with the same programs -/

/-- The stores have the same settings, programs, slots and open brackets. The count of memory, the
    label table and the count of edits may differ. -/
structure Agree (s t : Store) : Prop where
  options : s.options = t.options
  programs : s.programs = t.programs
  equations : s.equations = t.equations
  loading : s.loading = t.loading
  generatedEdits : s.generatedEdits = t.generatedEdits

namespace Agree

variable {t u : Store}

theorem refl (s : Store) : s.Agree s := ⟨rfl, rfl, rfl, rfl, rfl⟩

theorem symm (h : s.Agree t) : t.Agree s :=
  ⟨h.options.symm, h.programs.symm, h.equations.symm, h.loading.symm, h.generatedEdits.symm⟩

theorem trans (h : s.Agree t) (h' : t.Agree u) : s.Agree u :=
  ⟨h.options.trans h'.options, h.programs.trans h'.programs, h.equations.trans h'.equations,
    h.loading.trans h'.loading, h.generatedEdits.trans h'.generatedEdits⟩

theorem program? (h : s.Agree t) (ref : ProgramRef) : s.program? ref = t.program? ref := by
  cases ref <;> simp only [Store.program?, h.programs, h.equations]

theorem setProgram (h : s.Agree t) (ref : ProgramRef) (p : Program) :
    (s.setProgram ref p).Agree (t.setProgram ref p) := by
  obtain ⟨h1, h2, h3, h4, h5⟩ := h
  cases ref <;> exact ⟨h1, by simp only [Store.setProgram, h2],
    by simp only [Store.setProgram, h3], h4, h5⟩

theorem of_edits (h : s.Agree t) (edits : Nat) : { s with edits := edits }.Agree t :=
  ⟨h.options, h.programs, h.equations, h.loading, h.generatedEdits⟩

end Agree

/-! ## Capacities of all buffers -/

theorem inWord_add_inWord (m n : Int) : inWord (inWord m + n) = inWord (m + n) := by
  simp only [inWord, Int.bmod_add_bmod]

theorem inWord_sub_inWord (m n : Int) : inWord (inWord m - n) = inWord (m - n) := by
  simp only [inWord, Int.bmod_sub_bmod]

/-- The capacity of all buffers together. -/
def total (s : Store) : Nat :=
  (s.programs.map (·.buffer.capacity)).sum + (s.equations.map (·.elim 0 (·.buffer.capacity))).sum

theorem sum_map_set {α : Type} {n : Nat} (f : α → Nat) {xs : List α} {a : α} (b : α)
    (h : xs[n]? = some a) : ((xs.set n b).map f).sum + f a = (xs.map f).sum + f b := by
  induction xs generalizing n with
  | nil => simp at h
  | cons x xs ih =>
    cases n with
    | zero =>
      obtain rfl : x = a := by simpa using h
      simp only [List.set_cons_zero, List.map_cons, List.sum_cons]
      omega
    | succ n =>
      have hrest := ih (by simpa using h)
      simp only [List.set_cons_succ, List.map_cons, List.sum_cons]
      omega

theorem total_setProgram (hp : s.program? ref = some p) (q : Program) :
    (s.setProgram ref q).total + p.buffer.capacity = s.total + q.buffer.capacity := by
  cases ref with
  | user i =>
    obtain ⟨-, hi⟩ := program?_user_eq_some_iff.1 hp
    have hsum := sum_map_set (·.buffer.capacity) q hi
    simp only [total, setProgram] at hsum ⊢
    omega
  | equation i =>
    obtain ⟨-, hi⟩ := program?_equation_eq_some_iff.1 hp
    have hsum := sum_map_set (fun slot : Option Program => slot.elim 0 (·.buffer.capacity)) (some q)
      hi
    simp only [total, setProgram, elim_some] at hsum ⊢
    omega
  | none | solver | integrator => cases hp

theorem capacity_le_total (hp : s.program? ref = some p) : p.buffer.capacity ≤ s.total := by
  have hempty := total_setProgram hp { p with buffer := .empty 0 }
  rw [Buffer.capacity_empty] at hempty
  omega

theorem Agree.total {t : Store} (h : s.Agree t) : s.total = t.total := by
  rw [Store.total, Store.total, h.programs, h.equations]

/-- What is counted changes as the capacities of the buffers do. -/
def Balanced (s t : Store) : Prop :=
  inWord s.used = s.used → t.used = inWord (s.used + (t.total - s.total))

theorem Balanced.of_same {t : Store} (hused : t.used = s.used) (htotal : t.total = s.total) :
    s.Balanced t := by
  intro hword
  rw [hused, htotal, Int.sub_self, Int.add_zero, hword]

/-! ## Memory -/

/-- Why memory for a capacity is not granted: the limit does not allow it, or nothing is that
    large. -/
def MemoryFault (s : Store) (wanted : Nat) (e : Error) : Prop :=
  e = .insufficientMemory ∧ 0 < s.options.memoryLimit ∨ e = .outOfBounds ∧ maxCapacity < wanted

/-- Where `held` bytes are counted, no memory for `need` is to be had. -/
structure Denied (s : Store) (held need : Nat) (e : Error) : Prop where
  more : held = 0 ∨ held < need
  fault : s.MemoryFault (max (max (2 * held) need) s.options.initialCapacity.toNat) e
  short : e = .insufficientMemory → s.options.memoryLimit < inWord (s.used + (need - held))

/-- A capacity for `need` bytes where `held` are counted: that, or a larger one within the limit. -/
structure Granted (s : Store) (held need c : Nat) : Prop where
  enough : need ≤ c
  fresh : c = held ∨ (held = 0 ∨ held < need) ∧
    c ≤ max (max (2 * held) need) s.options.initialCapacity.toNat ∧ c ≤ max need maxCapacity ∧
    (0 < s.options.memoryLimit → inWord (s.used + (c - held)) ≤ s.options.memoryLimit)

theorem charge?_cases (s : Store) (n : Nat) :
    s.charge? n = some { s with used := inWord (s.used + n) } ∧
        (0 < s.options.memoryLimit → inWord (s.used + n) ≤ s.options.memoryLimit) ∨
      s.charge? n = none ∧ 0 < s.options.memoryLimit ∧
        s.options.memoryLimit < inWord (s.used + n) := by
  unfold charge?
  simp only [Bool.and_eq_true, decide_eq_true_eq]
  split
  · next h => exact .inr ⟨rfl, h⟩
  · next h => exact .inl ⟨rfl, fun hpos => by omega⟩

theorem allocate_cases (wanted least held : Nat) (s : Store) :
    (∃ c : Nat, allocate wanted least held s
        = .ok c { s with used := inWord (s.used + (c - held : Nat)) } ∧
      (c = wanted ∧ c ≤ maxCapacity ∨ c = least) ∧ (0 < s.options.memoryLimit →
        inWord (s.used + (c - held : Nat)) ≤ s.options.memoryLimit)) ∨
    ∃ e used, allocate wanted least held s = .error e { s with used := used } ∧
      s.MemoryFault wanted e ∧ (e = .insufficientMemory →
        s.options.memoryLimit < inWord (s.used + (least - held : Nat))) := by
  unfold allocate
  rcases s.charge?_cases (wanted - held) with ⟨h, hlimit⟩ | ⟨h, hpos, -⟩
  · rw [h]
    dsimp only
    split
    · next hbig => exact .inr ⟨_, _, rfl, .inr ⟨rfl, hbig⟩, by simp⟩
    · next hsmall => exact .inl ⟨wanted, rfl, .inl ⟨rfl, by omega⟩, hlimit⟩
  · rw [h]
    rcases s.charge?_cases (least - held) with ⟨h', hlimit⟩ | ⟨h', -, hshort⟩
    · rw [h']
      exact .inl ⟨least, rfl, .inr rfl, hlimit⟩
    · rw [h']
      exact .inr ⟨_, s.used, rfl, .inl ⟨rfl, hpos⟩, fun _ => hshort⟩

theorem allocate_more (held need : Nat) (hmore : held = 0 ∨ held < need) (s : Store) :
    (∃ c : Nat, allocate (max (max (2 * held) need) s.options.initialCapacity.toNat) need held s
        = .ok c { s with used := inWord (s.used + (c - held)) } ∧ s.Granted held need c) ∨
    ∃ e used, allocate (max (max (2 * held) need) s.options.initialCapacity.toNat) need held s
        = .error e { s with used := used } ∧ s.Denied held need e := by
  rcases allocate_cases (max (max (2 * held) need) s.options.initialCapacity.toNat) need held s with
    ⟨c, hrun, hc, hlimit⟩ | ⟨e, used, hrun, hfault, hshort⟩
  · rw [Nat.cast_sub (by omega)] at hrun hlimit
    exact .inl ⟨c, hrun, by omega, .inr ⟨hmore, by omega, by omega, hlimit⟩⟩
  · rw [Nat.cast_sub (by omega)] at hshort
    exact .inr ⟨e, used, hrun, hmore, hfault, hshort⟩

theorem newBuffer_cases (size : Nat) (s : Store) :
    (∃ c : Nat, newBuffer size s = .ok (.empty c) { s with used := inWord (s.used + c) } ∧
      s.Granted 0 size c) ∨
    ∃ e used, newBuffer size s = .error e { s with used := used } ∧ s.Denied 0 size e := by
  unfold newBuffer
  rw [Operation.get_bind]
  have hmore := allocate_more 0 size (.inl rfl) s
  simp only [Nat.mul_zero, Nat.zero_max, Nat.cast_zero, Int.sub_zero] at hmore
  rcases hmore with ⟨c, hrun, hc⟩ | ⟨e, used, hrun, he⟩
  · exact .inl ⟨c, by rw [Operation.bind_ok hrun]; rfl, hc⟩
  · exact .inr ⟨e, used, Operation.bind_error hrun, he⟩

theorem reserve_cases (b : Buffer) (extra : Nat) (s : Store) :
    (∃ b' used, reserve b extra s = .ok b' { s with used := used } ∧ b'.text = b.text ∧
      s.Granted b.capacity (b.text.length + extra) b'.capacity ∧
      (inWord s.used = s.used → used = inWord (s.used + (b'.capacity - b.capacity)))) ∨
    ∃ e used, reserve b extra s = .error e { s with used := used } ∧
      s.Denied b.capacity (b.text.length + extra) e := by
  unfold reserve
  split
  · next hroom =>
    refine .inl ⟨b, s.used, rfl, rfl, ⟨hroom, .inl rfl⟩, fun hword => ?_⟩
    rw [Int.sub_self, Int.add_zero, hword]
  · rw [Operation.get_bind]
    rcases allocate_more b.capacity (b.text.length + extra) (by omega) s with
      ⟨c, hrun, hc⟩ | ⟨e, used, hrun, he⟩
    · have hgrow : (b.grow c).capacity = c := Buffer.capacity_grow (by have := hc.enough; omega)
      exact .inl ⟨b.grow c, _, by rw [Operation.bind_ok hrun]; rfl, rfl, by rwa [hgrow],
        fun _ => by rw [hgrow]⟩
    · exact .inr ⟨e, used, Operation.bind_error hrun, he⟩

/-- A program that holds nothing but its END, and into which no return is pending. -/
structure Empty (generated : Bool) (p : Program) : Prop where
  text : p.buffer.text = endBytes
  clear : p.cachesClear = false
  refs : p.refs = 0
  generated : p.generated = generated

theorem emptyProgram_cases (generated : Bool) (s : Store) :
    (∃ p, emptyProgram generated s
        = .ok p { s with used := inWord (s.used + p.buffer.capacity) } ∧ Empty generated p ∧
      s.Granted 0 endBytes.length p.buffer.capacity) ∨
    ∃ e used, emptyProgram generated s = .error e { s with used := used } ∧
      s.Denied 0 endBytes.length e := by
  unfold emptyProgram
  rcases newBuffer_cases endBytes.length s with ⟨c, hrun, hc⟩ | ⟨e, used, hrun, he⟩
  · have hcapacity : ((Buffer.empty c).append endBytes).capacity = c := by
      rw [Buffer.capacity_append, Buffer.capacity_empty]
      rw [Buffer.capacity_empty]
      simpa [Buffer.empty] using hc.enough
    refine .inl ⟨{ buffer := (Buffer.empty c).append endBytes, generated := generated }, ?_,
      ⟨rfl, rfl, rfl, rfl⟩, by rwa [hcapacity]⟩
    rw [Operation.bind_ok hrun, hcapacity]
    rfl
  · exact .inr ⟨e, used, Operation.bind_error hrun, he⟩

/-! ## Slots -/

/-- The program in an equation slot. -/
def slot? (s : Store) (k : Nat) : Option Program := s.program? (.equation k)

/-- The slot that a new compiled program goes to. -/
def freeSlot (s : Store) : Nat :=
  (s.equations.findIdx? (·.isNone)).getD s.equations.length

/-- The store with a free slot more, if it had none. -/
def opened (s : Store) : Store :=
  { s with
    equations := if (s.equations.findIdx? (·.isNone)).isSome then s.equations
      else s.equations ++ [none] }

/-- The store with a program in a slot, the capacity of its buffer counted on top. -/
def host (s : Store) (k : Nat) (p : Program) : Store :=
  { s with
    used := inWord (s.used + p.buffer.capacity)
    equations := s.equations.set k (some p) }

section

variable {k : Nat} {p : Program}

theorem slot?_of_equations {t : Store} (h : t.equations = s.equations) (k : Nat) :
    t.slot? k = s.slot? k := by
  simp only [slot?, program?, h]

theorem slot?_eq_some_iff : s.slot? k = some p ↔ s.equations[k]? = some (some p) := by
  rw [slot?, program?_equation_eq_some_iff]
  simp

theorem slot?_of_getElem? : s.slot? k = s.equations[k]?.join := by
  rw [slot?, program?, at?, if_neg (by omega), Int.toNat_natCast]

theorem getElem?_opened (s : Store) : s.opened.equations[s.freeSlot]? = some none := by
  unfold opened freeSlot
  cases hfree : s.equations.findIdx? (·.isNone) with
  | some k =>
    obtain ⟨hlt, hnone, -⟩ := List.findIdx?_eq_some_iff_getElem.1 hfree
    simp only [isSome_some, if_true, getD_some]
    rw [List.getElem?_eq_getElem hlt, isNone_iff_eq_none.1 hnone]
  | none => simp

theorem freeSlot_lt (s : Store) : s.freeSlot < s.opened.equations.length :=
  (List.getElem?_eq_some_iff.1 s.getElem?_opened).1

theorem mem_opened (h : some p ∈ s.opened.equations) : some p ∈ s.equations := by
  unfold opened at h
  split at h
  · exact h
  · simpa using h

theorem slot?_opened (s : Store) (j : Nat) : s.opened.slot? j = s.slot? j := by
  rw [slot?_of_getElem?, slot?_of_getElem?]
  unfold opened
  cases s.equations.findIdx? (·.isNone) with
  | some k => rfl
  | none =>
    simp only [isSome_none, Bool.false_eq_true, if_false]
    rcases Nat.lt_trichotomy j s.equations.length with hlt | rfl | hgt
    · rw [List.getElem?_append_left hlt]
    · simp
    · rw [List.getElem?_eq_none (by simp; omega), List.getElem?_eq_none (by omega)]

theorem slot?_freeSlot (s : Store) : s.slot? s.freeSlot = none := by
  rw [← slot?_opened, slot?_of_getElem?, getElem?_opened]
  rfl

theorem program?_host (hk : k < s.equations.length) :
    (s.host k p).program? (.equation k) = some p :=
  slot?_eq_some_iff.2 (by rw [host, List.getElem?_set_self hk])

theorem slot?_host_ne {j : Nat} (hj : j ≠ k) : (s.host k p).slot? j = s.slot? j := by
  rw [slot?_of_getElem?, slot?_of_getElem?, host, List.getElem?_set_ne hj.symm]

theorem total_opened_host (s : Store) (p : Program) :
    (s.opened.host s.freeSlot p).total = s.total + p.buffer.capacity := by
  have hsum := sum_map_set (fun slot : Option Program => slot.elim 0 (·.buffer.capacity)) (some p)
    s.getElem?_opened
  have hopened : (s.opened.equations.map (·.elim 0 (·.buffer.capacity))).sum
      = (s.equations.map (·.elim 0 (·.buffer.capacity))).sum := by
    unfold opened
    split <;> simp
  simp only [elim_some, elim_none] at hsum
  simp only [total, host, opened] at hsum hopened ⊢
  omega

theorem newEquationSlot_cases (s : Store) :
    (∃ p, newEquationSlot s = .ok (.equation s.freeSlot) (s.opened.host s.freeSlot p) ∧
      Empty true p ∧ s.Granted 0 endBytes.length p.buffer.capacity) ∨
    ∃ e used, newEquationSlot s = .error e { s with used := used } ∧
      s.Denied 0 endBytes.length e := by
  unfold newEquationSlot
  rcases emptyProgram_cases true s with ⟨p, hrun, hp, hgranted⟩ | ⟨e, used, hrun, he⟩
  · refine .inl ⟨p, ?_, hp, hgranted⟩
    rw [Operation.bind_ok hrun, Operation.get_bind]
    unfold opened freeSlot host
    cases s.equations.findIdx? (·.isNone) <;> simp
  · exact .inr ⟨e, used, Operation.bind_error hrun, he⟩

end

theorem agree_used (s : Store) (used : Int) : s.Agree { s with used := used } :=
  ⟨rfl, rfl, rfl, rfl, rfl⟩

theorem edited_cases (s : Store) : ∃ edits, edited s = .ok () { s with edits := edits } := by
  unfold edited
  simp only [modify, modifyGet, MonadStateOf.modifyGet, EStateM.modifyGet]
  split
  · exact ⟨_, rfl⟩
  · exact ⟨s.edits, rfl⟩

end Store

end Keystroke
