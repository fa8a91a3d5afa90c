import Keystroke.Proofs.Machine.Levels
import Keystroke.Proofs.Machine.Perform
import Keystroke.Proofs.Store.Coherence
import Mathlib.Logic.Relation

set_option autoImplicit false

/-! # Running a compiled program

A session that runs a compiled program is described by the number of the line it is at, its stack,
the levels it has entered and its variables (`Point`). What the bytes of the program are, and which
targets its jumps have kept so far, does not show. One lemma for each kind of line says which point
leads to which (`Job.Leads`). -/

namespace Keystroke

open List

variable {s s' : Session} {op : ArithOp}

/-! ## Runs -/

namespace Session

/-- The session at the place that a line has led to. -/
def proceed (s : Session) (next : Next) : Session :=
  if !s.running then s
  else if next.skip then { s with pc := next.pc + s.skippedSize next.pc }
  else { s with pc := next.pc }

theorem proceed_of_running (h : s.running = true) (pc : Int) :
    s.proceed { pc := pc } = { s with pc := pc } := by
  rw [proceed, if_neg (by simp [h]), if_neg (by simp)]

/-- The session goes on without a limit and makes one step. -/
def Steps (s s' : Session) : Prop := s.running = true ∧ s.stepLimit ≤ 0 ∧ step s = .ok () s'

/-- The session gets there by steps. -/
def Reaches : Session → Session → Prop := Relation.ReflTransGen Steps

theorem runFrom_of_steps (h : s.Steps s') (n : Nat) : runFrom n s = runFrom (n + 1) s' := by
  obtain ⟨hrun, hlimit, hstep⟩ := h
  rw [runFrom]
  simp [hrun, hstep, Int.not_lt.2 hlimit]

theorem runFrom_of_reaches (h : s.Reaches s') (n : Nat) : ∃ m, runFrom n s = runFrom m s' := by
  induction h with
  | refl => exact ⟨n, rfl⟩
  | tail _ hstep ih =>
    obtain ⟨m, hm⟩ := ih
    exact ⟨m + 1, hm.trans (runFrom_of_steps hstep m)⟩

theorem runFrom_of_stopped (h : s.running = false) (n : Nat) : runFrom n s = some (.ok () s) := by
  rw [runFrom]
  simp [h]

end Session

/-! ## Programs that are run -/

/-- A program in an equation slot, and what stays the same while it runs. -/
structure Job where
  slot : Int
  /-- The lines, with no target looked up. -/
  lines : List Line
  /-- The variable that is being solved for. -/
  target : Bytes
  /-- The greatest number of pending returns. -/
  depth : Int
  /-- The height of the stack below the input. -/
  base : Int
  /-- Offsets fit into the four bytes that jumps keep. -/
  short : (textOf lines).length < 2147483648
  clear : clearAll lines = lines
  notEnd : ∀ l ∈ lines, l.isEnd = false
  /-- Jumps go to lines by number, not to labels. -/
  numbered : ∀ l ∈ lines, l.header.command ≠ .gto ∧ l.header.command ≠ .xeq

namespace Job

variable {j : Job} {s : Store} {k n : Nat} {l : Line}

/-- The reference of the program. -/
def ref (j : Job) : ProgramRef := .equation j.slot

/-- The offset of a line, counted from zero. -/
def offset (j : Job) (k : Nat) : Nat := (textOf (j.lines.take k)).length

/-- The line that the machine sees: jumps have their targets. -/
def read (j : Job) (l : Line) : Instr :=
  if l.header.cached then l.instr.withTarget (targetIn false j.lines [] l.instr) else l.instr

/-- The program is in the store; the targets that its jumps keep are right. -/
structure Loaded (j : Job) (s : Store) : Prop where
  program : ∃ p ls, s.program? j.ref = some p ∧ p.Holds ls ∧ clearAll ls = j.lines ∧
    Coherent s.options.strictLabels ls

theorem offset_le (j : Job) (k : Nat) : j.offset k ≤ (textOf j.lines).length := by
  have h : (textOf (j.lines.take k ++ j.lines.drop k)).length = (textOf j.lines).length := by
    rw [take_append_drop]
  rw [textOf_append, length_append] at h
  rw [offset]
  omega

theorem offset_le_maxOffset (j : Job) (k : Nat) : (j.offset k : Int) ≤ maxOffset := by
  have hle := j.offset_le k
  have hshort := j.short
  rw [maxOffset]
  omega

theorem offset_succ (hk : j.lines[k]? = some l) : j.offset (k + 1) = j.offset k + l.size := by
  rw [offset, offset, take_add_one, hk, Option.toList_some, textOf_append, length_append]
  simp [Line.size]

theorem exists_split {ls : List Line} (hclear : clearAll ls = j.lines)
    (hk : j.lines[k]? = some l) :
    ∃ front m back, ls = front ++ m :: back ∧ front.length = k ∧
      (textOf front).length = j.offset k ∧ l = m.withTarget targetUnknown := by
  rw [← hclear, clearAll, getElem?_map] at hk
  obtain ⟨m, hm, rfl⟩ := Option.map_eq_some_iff.1 hk
  obtain ⟨hlt, rfl⟩ := List.getElem?_eq_some_iff.1 hm
  refine ⟨ls.take k, ls[k], ls.drop (k + 1), ?_, ?_, ?_, rfl⟩
  · rw [getElem_cons_drop, take_append_drop]
  · rw [length_take]
    omega
  · rw [offset, ← hclear, clearAll, ← map_take]
    exact (length_textOf_clearAll _).symm

theorem command_of_cached (hl : l ∈ j.lines) (hc : l.header.cached = true) :
    l.instr.command = .gtol ∨ l.instr.command = .xeql := by
  obtain ⟨hgto, hxeq⟩ := j.numbered l hl
  simpa [Header.cached, hasJumpCache, hgto, hxeq] using hc

theorem isNegativeJump_eq (hl : l ∈ j.lines) : l.header.isNegativeJump = false := by
  obtain ⟨hgto, hxeq⟩ := j.numbered l hl
  simp [Header.isNegativeJump, hgto, hxeq]

/-- Where a jump to a line leads does not depend on the place of the jump. -/
theorem targetIn_eq {strict : Bool} {i : Instr} {front back : List Line} (u : Int32)
    (hc : i.command = .gtol ∨ i.command = .xeql) (hclear : clearAll (front ++ back) = j.lines) :
    targetIn strict front back i = targetIn false j.lines [] (i.withTarget u) := by
  have hpassed : ∀ n, passed n (front ++ back ++ [Line.endLine])
      = passed n (j.lines ++ [Line.endLine]) := by
    intro n
    rw [← passed_clearAll n (front ++ back ++ [Line.endLine]), clearAll_append, hclear,
      clearAll_endLine]
  have hif : (decide (i.command = .gtol) || decide (i.command = .xeql)) = true := by
    simpa using hc
  rw [targetIn_withTarget, targetIn, targetIn, if_pos hif, if_pos hif, append_nil, hpassed]

/-- Reading a line gives it with its target, whether that was known before or not. -/
theorem Loaded.resolve (h : j.Loaded s) (hk : j.lines[k]? = some l) :
    ∃ s', Store.resolveTarget j.ref (j.offset k) s = .ok (j.read l, l.size) s' ∧
      j.Loaded s' := by
  obtain ⟨p, ls, hp, hls, hclear, hcoh⟩ := h.program
  have hmem : l ∈ j.lines := mem_of_getElem? hk
  obtain ⟨front, m, back, rfl, hfront, hoff, rfl⟩ := exists_split hclear hk
  have hsize : ((textOf front).length : Int) ≤ maxOffset := hoff ▸ j.offset_le_maxOffset k
  have hneg : m.header.isNegativeJump = false := by
    simpa using isNegativeJump_eq hmem
  have hcache := Line.hasJumpCache_instr hneg
  rw [← hoff, Line.size_withTarget]
  cases hc : m.header.cached with
  | false =>
    rw [hc] at hcache
    refine ⟨s, ?_, h⟩
    rw [read, Line.withTarget_of_not_cached _ hc, hc]
    exact Store.resolveTarget_of_known hp hls.textAt hsize (.inl hcache)
  | true =>
    have hcommand : m.instr.command = .gtol ∨ m.instr.command = .xeql := by
      simpa [Line.instr_command] using command_of_cached hmem (by simpa using hc)
    have hclear' : clearAll (front ++ [m] ++ back) = j.lines := by
      rw [← hclear]
      simp
    have htarget : targetIn s.options.strictLabels (front ++ [m]) back m.instr = _ :=
      targetIn_eq targetUnknown hcommand hclear'
    have hread : j.read (m.withTarget targetUnknown)
        = m.instr.withTarget (targetIn s.options.strictLabels (front ++ [m]) back m.instr) := by
      rw [read, Line.header_withTarget, hc, if_pos rfl, Line.instr_withTarget _ hc, ← htarget]
      rfl
    by_cases hu : m.target = targetUnknown
    · have hrun := Store.resolveTarget_of_jump hp hls hsize hneg hc hu
      rw [hread]
      refine ⟨_, hrun, ⟨⟨_, _, Store.program?_setProgram_self _ hp, hls.withTarget _ _, ?_,
        hcoh.set _ hc rfl⟩⟩⟩
      rw [← hclear]
      simp
    · have hkeep := hcoh front.length m (by simp) hu
      rw [targetIn_middle] at hkeep
      refine ⟨s, ?_, h⟩
      rw [hread, hkeep]
      exact Store.resolveTarget_of_known hp hls.textAt hsize (.inr hu)

theorem Loaded.notes {t : Store} (h : j.Loaded s) (hnotes : s.Notes t) : j.Loaded t := by
  rcases hnotes with rfl | ⟨ref, p, n, hp, rfl⟩
  · exact h
  obtain ⟨q, ls, hq, hls, hclear, hcoh⟩ := h.program
  rw [← Store.options_setProgram s ref { p with refs := n }] at hcoh
  by_cases href : j.ref = ref
  · subst href
    obtain rfl : p = q := Option.some_inj.1 (hp.symm.trans hq)
    exact ⟨⟨_, ls, Store.program?_setProgram_self _ hp, ⟨hls.text, hls.notEnd⟩, hclear, hcoh⟩⟩
  · exact ⟨⟨q, ls, by rw [Store.program?_setProgram_ne _ hp href, hq], hls, hclear, hcoh⟩⟩

theorem Loaded.lineSizeAt (h : j.Loaded s) (hk : j.lines[k]? = some l) :
    ∃ text, s.text j.ref = .ok text ∧ Keystroke.lineSizeAt text (j.offset k) = .ok l.size := by
  obtain ⟨p, ls, hp, hls, hclear, -⟩ := h.program
  obtain ⟨front, m, back, rfl, -, hoff, rfl⟩ := exists_split hclear hk
  refine ⟨p.buffer.text, by simp [Store.text, hp], ?_⟩
  rw [← hoff, Line.size_withTarget]
  exact lineSizeAt_line hls.textAt (hoff ▸ j.offset_le_maxOffset k)

theorem Loaded.lineAt (h : j.Loaded s) (hk : j.lines[k]? = some l) :
    s.lineAt j.ref (j.offset k) = .ok (k + 1) := by
  obtain ⟨p, ls, hp, hls, hclear, -⟩ := h.program
  obtain ⟨front, m, back, rfl, rfl, hoff, rfl⟩ := exists_split hclear hk
  rw [← hoff, Store.lineAt_of_holds hp hls (by omega), linesBelow_front]

/-! ## Points of a run -/

end Job

/-- Where a run of a program is. -/
structure Point where
  /-- The line that comes next, counted from zero. -/
  line : Nat
  stack : List Float
  /-- The levels that were entered, innermost first. -/
  levels : List Level
  vars : Variables

namespace Job

variable {j : Job} {s : Session} {c c' c'' : Point} {k n : Nat} {l : Line} {i : Instr}

/-- The session is about to perform a line of the program. -/
structure Placed (j : Job) (k : Nat) (s : Session) : Prop where
  loaded : j.Loaded s.store
  current : s.current = j.ref
  pc : s.pc = j.offset k
  running : s.running = true

/-- The session is about to perform a line of the program, and may make any number of steps. -/
structure Ready (j : Job) (k : Nat) (s : Session) : Prop extends j.Placed k s where
  unlimited : s.stepLimit ≤ 0

/-- The session is about to perform a line of the program in the innermost of the levels. -/
structure Runs (j : Job) (k : Nat) (ls : List Level) (s : Session) : Prop
    extends j.Placed k s, s.HasLevels ls where
  stopLevel : s.calls.stopLevel = -1
  cursor : s.calls.baseCursor = false
  slots : s.calls.slots
    = (ls.map Level.back).map fun back => .pending j.ref (j.offset back) false false

/-- The session is at a point of a run. -/
structure At (j : Job) (c : Point) (s : Session) : Prop extends j.Runs c.line c.levels s where
  unlimited : s.stepLimit ≤ 0
  target : s.solvingFor = j.target
  depth : s.calls.max = j.depth
  declared : s.calls.baseFunc = true
  record : s.funcs.find? 0 = some ⟨j.base, 1⟩
  stack : s.stack = c.stack
  vars : s.vars = c.vars

/-- From the first point every run gets to the second. -/
def Leads (j : Job) (c c' : Point) : Prop :=
  ∀ s, j.At c s → ∃ s', s.Reaches s' ∧ j.At c' s'

theorem Leads.refl (j : Job) (c : Point) : j.Leads c c := fun s h => ⟨s, .refl, h⟩

theorem Leads.trans (h : j.Leads c c') (h' : j.Leads c' c'') : j.Leads c c'' := by
  intro s hs
  obtain ⟨t, hst, ht⟩ := h s hs
  obtain ⟨u, htu, hu⟩ := h' t ht
  exact ⟨u, hst.trans htu, hu⟩

/-- A step is what its line does, in a store where the line may have got its target. -/
theorem Placed.step_eq (h : j.Placed k s) (hk : j.lines[k]? = some l) :
    ∃ store, j.Loaded store ∧ Session.step s =
      match Session.perform (j.read l) (j.offset (k + 1)) { s with store := store } with
      | .error e s' => .error (s'.lineError (j.read l).command e) s'.halt
      | .ok next s' => .ok () (s'.proceed next) := by
  obtain ⟨store, hrun, hloaded⟩ := h.loaded.resolve hk
  refine ⟨store, hloaded, ?_⟩
  have hpc : s.pc + (l.size : Int) = j.offset (k + 1) := by
    rw [h.pc, offset_succ hk]
    omega
  rw [← h.current, ← h.pc] at hrun
  rw [Session.step, if_neg (by simp [h.running]), hrun]
  simp only [hpc]
  cases Session.perform (j.read l) (j.offset (k + 1)) { s with store := store } with
  | error e s' => rfl
  | ok next s' =>
    dsimp only [Session.proceed]
    split_ifs <;> rfl

theorem Placed.proceed_skip (h : j.Placed k s) (hn : j.lines[n]? = some l) :
    s.proceed { pc := j.offset n, skip := true } = { s with pc := j.offset (n + 1) } := by
  obtain ⟨text, htext, hsize⟩ := h.loaded.lineSizeAt hn
  rw [← h.current] at htext
  have hskip : s.skippedSize (j.offset n) = l.size := by
    simp only [Session.skippedSize, htext, hsize]
  rw [Session.proceed, if_neg (by simp [h.running]), if_pos rfl, hskip, offset_succ hn]
  rfl

/-! ## Levels -/

section

variable {ls : List Level}

/-- Storing under a name, at whatever level it has a value. -/
theorem Runs.storeVariable (h : j.Runs k ls s) (name : Bytes) (x : Float) :
    ∃ table, s.storeVariable name x
        = { s with locals := table, vars := (Level.storeIn ls s.vars name x).2 } ∧
      j.Runs (k + 1) (Level.storeIn ls s.vars name x).1 { s with
        locals := table
        vars := (Level.storeIn ls s.vars name x).2
        pc := j.offset (k + 1) } := by
  obtain ⟨table, heq, htable⟩ := h.toHasLevels.storeVariable_eq name x
  have hback := Session.map_back_storeIn ls s.vars name x
  have hlen := congrArg length hback
  rw [length_map, length_map] at hlen
  exact ⟨table, heq, { h with
    pc := rfl
    slots := by rw [hback]; exact h.slots
    level := by rw [hlen]; exact h.level
    locals := htable }⟩

theorem Runs.putLocal {l : Level} (h : j.Runs k (l :: ls) s) (name : Bytes) (x : Float) :
    j.Runs (k + 1) ({ l with locals := l.locals.put name x } :: ls)
      { s.putLocal s.calls.level name x with pc := j.offset (k + 1) } := by
  have hlevels := h.toHasLevels.putLocal name x
  exact { h with pc := rfl, level := hlevels.level, locals := hlevels.locals }

theorem Runs.call (h : j.Runs k ls s) (n : Nat) :
    j.Runs n (⟨k + 1, []⟩ :: ls) { s with
      calls := { s.calls with
        slots := .pending j.ref (j.offset (k + 1)) false false :: s.calls.slots
        level := s.calls.level + 1 }
      store := s.store.retain j.ref
      pc := j.offset n } where
  loaded := h.loaded.notes (Store.notes_retain _ _)
  current := h.current
  pc := rfl
  running := h.running
  stopLevel := h.stopLevel
  cursor := h.cursor
  slots := congrArg (Slot.pending j.ref (j.offset (k + 1)) false false :: ·) h.slots
  level := congrArg (· + 1) h.level
  locals := fun m => by
    rw [h.locals m, Level.localsAt]
    split
    · next hm => exact Level.localsAt_of_length_lt (by rw [hm]; exact Nat.lt_succ_self _)
    · rfl

theorem Runs.leave {l : Level} (h : j.Runs k (l :: ls) s) :
    j.Runs l.back ls { s with
      locals := s.locals.remove (ls.length + 1)
      funcs := s.funcs.remove (ls.length + 1)
      calls := { s.calls with
        slots := (ls.map Level.back).map fun back => .pending j.ref (j.offset back) false false
        level := ls.length }
      store := s.store.release j.ref
      current := j.ref
      pc := j.offset l.back } where
  loaded := h.loaded.notes (Store.notes_release _ _)
  current := rfl
  pc := rfl
  running := h.running
  stopLevel := h.stopLevel
  cursor := h.cursor
  slots := rfl
  level := rfl
  locals := fun m => by
    have hlocals := h.locals m
    rw [Level.localsAt] at hlocals
    rw [Assoc.find?_remove]
    split
    · next hm =>
      exact (Level.localsAt_of_length_lt (by rw [← hm]; exact Nat.lt_succ_self _)).symm
    · next hm => rw [hlocals, if_neg (Ne.symm hm)]

end

theorem leads_of_perform (hk : j.lines[c.line]? = some l)
    (h : ∀ s, j.At c s → ∃ s',
      Session.perform (j.read l) (j.offset (c.line + 1)) s = .ok { pc := j.offset c'.line } s' ∧
      j.At c' { s' with pc := j.offset c'.line }) :
    j.Leads c c' := by
  intro s hs
  obtain ⟨store, hloaded, hstep⟩ := hs.step_eq hk
  obtain ⟨s', hperf, hat⟩ := h { s with store := store } { hs with loaded := hloaded }
  rw [hperf] at hstep
  dsimp only at hstep
  rw [Session.proceed_of_running (s := s') hat.running] at hstep
  exact ⟨_, .single ⟨hs.running, hs.unlimited, hstep⟩, hat⟩

/-! ## Lines one by one -/

/-- The machine reads this at a line, apart from the target of a jump. -/
def Has (j : Job) (k : Nat) (i : Instr) : Prop := ∃ l, j.lines[k]? = some l ∧ l.instr = i

theorem read_eq (hl : l ∈ j.lines) (h : ∀ call, l.instr.command.action? ≠ some (.jump call)) :
    j.read l = l.instr := by
  rw [read, if_neg]
  intro hc
  rcases command_of_cached hl hc with hc | hc
  · exact h false (by rw [hc]; rfl)
  · exact h true (by rw [hc]; rfl)

theorem Has.leads (h : j.Has c.line i) (hjump : ∀ call, i.command.action? ≠ some (.jump call))
    (hline : c'.line = c.line + 1)
    (hperf : ∀ s, j.At c s → ∃ s',
      Session.perform i (j.offset c'.line) s = .ok { pc := j.offset c'.line } s' ∧
      j.At c' { s' with pc := j.offset c'.line }) :
    j.Leads c c' := by
  obtain ⟨l, hk, rfl⟩ := h
  refine leads_of_perform hk fun s hs => ?_
  rw [read_eq (mem_of_getElem? hk) hjump, ← hline]
  exact hperf s hs

variable {x y r : Float} {st : List Float} {ls : List Level} {vars : Variables}

/-! ## Names -/

theorem At.valueOf (h : j.At c s) (name : Bytes) :
    s.valueOf name = Level.valueIn c.levels c.vars name := by
  rw [h.toHasLevels.valueOf_eq, h.vars]

theorem Has.calculates {st' : List Float} (h : j.Has k i)
    (hc : i.Calculates j.target vars (Level.valueIn ls vars) st st') :
    j.Leads ⟨k, st, ls, vars⟩ ⟨k + 1, st', ls, vars⟩ := by
  refine h.leads (fun call => by cases hc <;> simp [*]) rfl fun s hs => ?_
  have hs' : i.Calculates s.solvingFor s.vars s.valueOf s.stack st' := by
    rw [hs.target, hs.vars, hs.stack, funext hs.valueOf]
    exact hc
  obtain ⟨x, hx⟩ := Session.perform_of_calculates hs'
  exact ⟨_, hx, { hs with pc := rfl, stack := rfl }⟩

theorem At.storeVariable (h : j.At c s) (name : Bytes) (x : Float) :
    j.At ⟨c.line + 1, c.stack, (Level.storeIn c.levels c.vars name x).1,
        (Level.storeIn c.levels c.vars name x).2⟩
      { s.storeVariable name x with pc := j.offset (c.line + 1) } := by
  obtain ⟨table, heq, hruns⟩ := h.toRuns.storeVariable name x
  rw [heq]
  rw [h.vars] at hruns ⊢
  exact { hruns, h with vars := rfl }

theorem At.combined (h : j.At c s) {name : Bytes} (hv : Level.valueIn c.levels c.vars name = .ok y)
    (hr : op.eval y x = .ok r) : s.combined name x (some op) = .ok r := by
  rw [Session.combined, h.valueOf, hv]
  exact hr

theorem leads_store {op? : Option ArithOp} (h : j.Has k i)
    (hc : i.command.action? = some (.store op?)) (hi : i.operand.kind = .text)
    (hr : ∀ s, j.At ⟨k, x :: st, ls, vars⟩ s → s.combined i.operand.text x op? = .ok r) :
    j.Leads ⟨k, x :: st, ls, vars⟩ ⟨k + 1, x :: st, (Level.storeIn ls vars i.operand.text r).1,
      (Level.storeIn ls vars i.operand.text r).2⟩ :=
  h.leads (by simp [hc]) rfl fun s hs =>
    ⟨_, by rw [Session.perform_store_eq hc hi, hs.stack]; simp only [hr s hs],
      hs.storeVariable _ _⟩

theorem leads_storeLocal {l : Level} (h : j.Has k i) (hc : i.command.action? = some .storeLocal) :
    j.Leads ⟨k, x :: st, l :: ls, vars⟩
      ⟨k + 1, x :: st, { l with locals := l.locals.put i.operand.text x } :: ls, vars⟩ :=
  h.leads (by simp [hc]) rfl fun _ hs =>
    ⟨_, by rw [Session.perform_storeLocal_eq hc, hs.stack],
      { hs.toRuns.putLocal i.operand.text x, hs with }⟩

/-! ## Control -/

theorem target_eq_offset (hc : i.command = .gtol ∨ i.command = .xeql)
    (hn : i.operand.num.toInt = n + 1) :
    (targetIn false j.lines [] i).toInt = j.offset n :=
  toInt_targetIn false hc hn (append_nil _) j.notEnd j.short

theorem not_target_neg (hc : i.command = .gtol ∨ i.command = .xeql)
    (hn : i.operand.num.toInt = n + 1) :
    ¬ targetIn false j.lines [] i < 0 := by
  rw [Int32.lt_iff_toInt_lt, target_eq_offset hc hn]
  simp

theorem read_jump (hc : l.instr.command = .gtol ∨ l.instr.command = .xeql) :
    j.read l = l.instr.withTarget (targetIn false j.lines [] l.instr) := by
  rw [read, if_pos]
  rw [Line.instr_command] at hc
  rcases hc with hc | hc <;> simp [Header.cached, hasJumpCache, hc]

theorem leads_goto (h : j.Has k i) (hc : i.command = .gtol) (hi : i.operand.kind ≠ .text)
    (hn : i.operand.num.toInt = n + 1) :
    j.Leads ⟨k, st, ls, vars⟩ ⟨n, st, ls, vars⟩ := by
  obtain ⟨l, hk, hl⟩ := h
  have haction : (i.withTarget (targetIn false j.lines [] i)).command.action?
      = some (.jump false) := congrArg Command.action? hc
  refine leads_of_perform hk fun s hs => ?_
  rw [read_jump (by rw [hl]; exact .inl hc), hl, ← target_eq_offset (.inl hc) hn]
  exact ⟨s, Session.perform_jump haction hi (not_target_neg (.inl hc) hn),
    { hs with pc := target_eq_offset (.inl hc) hn }⟩

theorem leads_call (h : j.Has k i) (hc : i.command = .xeql) (hi : i.operand.kind ≠ .text)
    (hn : i.operand.num.toInt = n + 1) (hroom : (ls.length : Int) < j.depth) :
    j.Leads ⟨k, st, ls, vars⟩ ⟨n, st, ⟨k + 1, []⟩ :: ls, vars⟩ := by
  obtain ⟨l, hk, hl⟩ := h
  have haction : (i.withTarget (targetIn false j.lines [] i)).command.action?
      = some (.jump true) := congrArg Command.action? hc
  refine leads_of_perform hk fun s hs => ?_
  have hlevel : s.calls.level = ls.length := hs.level
  have hfull : (s.calls.level : Int) ≠ s.calls.max := by
    rw [hlevel, hs.depth]
    omega
  rw [read_jump (by rw [hl]; exact .inr hc), hl, ← target_eq_offset (.inr hc) hn]
  refine ⟨_, Session.perform_call haction hi (not_target_neg (.inr hc) hn) hfull hs.current, ?_⟩
  rw [target_eq_offset (.inr hc) hn]
  exact { hs.toRuns.call n, hs with }

theorem leads_return {l : Level} (h : j.Has k i) (hc : i.command.action? = some .leave) :
    j.Leads ⟨k, st, l :: ls, vars⟩ ⟨l.back, st, ls, vars⟩ := by
  obtain ⟨line, hk, hl⟩ := h
  refine leads_of_perform hk fun s hs => ?_
  rw [read_eq (mem_of_getElem? hk) (by rw [hl, hc]; simp), hl]
  refine ⟨_, Session.perform_leave hc hs.level hs.slots hs.stopLevel,
    { hs.toRuns.leave, hs with record := ?_ }⟩
  rw [Assoc.find?_remove, if_neg (by simp)]
  exact hs.record

theorem leads_skipUnless {i' : Instr} (h : j.Has k i) (h' : j.Has (k + 1) i')
    (hc : i.command.action? = some .skipUnless) :
    j.Leads ⟨k, x :: st, ls, vars⟩ ⟨if x == 0 then k + 2 else k + 1, st, ls, vars⟩ := by
  obtain ⟨l, hk, hl⟩ := h
  obtain ⟨l', hk', -⟩ := h'
  intro s hs
  obtain ⟨store, hloaded, hstep⟩ := hs.step_eq hk
  rw [read_eq (mem_of_getElem? hk) (by rw [hl, hc]; simp), hl,
    Session.perform_skipUnless_eq hc] at hstep
  have hplaced : j.Placed k { s with store := store, stack := st } :=
    { hs.toPlaced with loaded := hloaded }
  simp only [hs.stack] at hstep
  cases hx : x == 0 with
  | true =>
    rw [hx, hplaced.proceed_skip hk'] at hstep
    exact ⟨_, .single ⟨hs.running, hs.unlimited, hstep⟩,
      { hs with loaded := hloaded, pc := rfl, stack := rfl }⟩
  | false =>
    rw [hx, Session.proceed_of_running hplaced.running] at hstep
    exact ⟨_, .single ⟨hs.running, hs.unlimited, hstep⟩,
      { hs with loaded := hloaded, pc := rfl, stack := rfl }⟩

end Job

end Keystroke
