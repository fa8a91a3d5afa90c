import Keystroke.Compile.Generate
import Mathlib.Data.List.Basic
import Mathlib.Tactic.SplitIfs

set_option autoImplicit false

/-! # Where compiled code lies

What the compiler adds for an expression depends only on how many labels were handed out before
(`Expr.generate_eq`). Labels are handed out in order, so no label is marked twice, and every jump
goes to a label that is marked in the code of the same expression (`Expr.ordered_emitted`). Once the
code is complete, its lines stand one behind the other, each label has the number of the line
behind it, and each jump has the number of its label (`Code.laid_instrs`). -/

namespace Keystroke

open List Code CodeLine

variable {id a k : Nat} {cs : List CodeLine} {code : List Instr} {lineOf : Nat → Nat}

/-! ## What an expression adds -/

/-- What is added to code: lines of the current stream, subroutines, and the number of labels that
    are handed out afterwards. -/
structure Emitted where
  stream : List CodeLine
  subroutines : List (List CodeLine) := []
  labels : Nat

/-- The code with something added. -/
def Code.extend (c : Code) (x : Emitted) : Code :=
  { c with
    stream := c.stream ++ x.stream
    subroutines := c.subroutines ++ x.subroutines
    labels := x.labels }

namespace Expr

/-- The command of a call. -/
def callLine (names : NameTable) (name : Bytes) (arguments : Nat) : Instr :=
  match names.command? name arguments with
  | some command => .plain command
  | none => .withName .xeq name

mutual

/-- What the compiler adds for an expression, `n` labels having been handed out. -/
def emitted (names : NameTable) : Expr → Nat → Emitted
  | literal _ value text, n => ⟨[.plain (.ofNumber value.toBits text)], [], n⟩
  | var _ name, n | fetch _ name, n => ⟨[.plain (.withName .rcl name)], [], n⟩
  | solving _ name, n => ⟨[.plain (.withName .svar name)], [], n⟩
  | group _ e, n | tagged _ _ e, n => e.emitted names n
  | unary _ op e, n =>
    let x := e.emitted names n
    ⟨x.stream ++ op.lines, x.subroutines, x.labels⟩
  | binary _ op l r, n =>
    let x := l.emitted names n
    let y := r.emitted names x.labels
    ⟨x.stream ++ y.stream ++ [.plain (.plain op.command)], x.subroutines ++ y.subroutines,
      y.labels⟩
  | apply _ fn e, n =>
    let x := e.emitted names n
    ⟨x.stream ++ [.plain (.plain fn.command)], x.subroutines, x.labels⟩
  | extremum _ greatest es, n =>
    let x := emittedAll names es n
    ⟨x.stream ++ [.plain (.withNum (if greatest then .greatest else .least) (.ofNat es.length))],
      x.subroutines, x.labels⟩
  | call _ name es, n =>
    let x := emittedAll names es n
    ⟨x.stream ++ [.plain (callLine names name es.length)], x.subroutines, x.labels⟩
  | conditional _ condition yes no, n =>
    let x := condition.emitted names (n + 2)
    let y := no.emitted names x.labels
    let z := yes.emitted names y.labels
    ⟨x.stream ++ [.plain (.plain .ifTrue), .jump .gtol (n + 1 : Nat)] ++ y.stream ++
        [.jump .gtol (n + 2 : Nat), .label (n + 1)] ++ z.stream ++ [.label (n + 2)],
      x.subroutines ++ y.subroutines ++ z.subroutines, z.labels⟩
  | assign _ name e, n =>
    let x := e.emitted names n
    ⟨x.stream ++ [.plain (.withName .sto name)], x.subroutines, x.labels⟩
  | item _ name e _, n =>
    let x := e.emitted names n
    ⟨x.stream ++ [.plain (.withName .getItem name)], x.subroutines, x.labels⟩
  | sigma _ index first last step body, n =>
    let x := last.emitted names (n + 3)
    let y := step.emitted names x.labels
    let z := first.emitted names y.labels
    let w := body.emitted names z.labels
    ⟨x.stream ++ y.stream ++ z.stream ++ [.jump .xeql (n + 1 : Nat)],
      x.subroutines ++ y.subroutines ++ z.subroutines ++ w.subroutines ++
        [.label (n + 1) :: (sumPrologue index ++ sumTest (n + 2) (n + 3) ++ w.stream ++
          sumEpilogue index (n + 2) (n + 3))],
      w.labels⟩

/-- What the compiler adds for several expressions. -/
def emittedAll (names : NameTable) : List Expr → Nat → Emitted
  | [], n => ⟨[], [], n⟩
  | e :: es, n =>
    let x := e.emitted names n
    let y := emittedAll names es x.labels
    ⟨x.stream ++ y.stream, x.subroutines ++ y.subroutines, y.labels⟩

end

mutual

theorem generate_eq (names : NameTable) (e : Expr) (c : Code) :
    e.generate names c = c.extend (e.emitted names c.labels) := by
  cases e with
  | literal | var | fetch | solving => simp [generate, emitted, add, emit, extend]
  | group p e | tagged p name e =>
    rw [generate, emitted]
    exact generate_eq names e c
  | unary p op e | apply p fn e | assign p name e | item p name e bracket =>
    simp [generate, emitted, generate_eq names e c, add, emit, emitAll, extend]
  | binary p op l r =>
    simp [generate, emitted, generate_eq names l c, generate_eq names r, add, emit, extend]
  | extremum p greatest es =>
    simp [generate, emitted, generateAll_eq names es c, add, emit, extend]
  | call p name es =>
    rw [generate, emitted, generateAll_eq names es c, callLine]
    cases names.command? name es.length <;> simp [add, emit, extend]
  | conditional p condition yes no =>
    simp [generate, emitted, generate_eq names condition, generate_eq names yes,
      generate_eq names no, newLabels, emit, emitAll, extend]
  | sigma p index first last step body =>
    have hmark : mark ((c.labels : Int) + 1) = .label (c.labels + 1) := by
      rw [mark, if_pos (by omega)]
      congr 1
    simp [generate, emitted, generate_eq names first, generate_eq names last,
      generate_eq names step, generate_eq names body, newLabels, emit, emitAll,
      openSubroutine, closeSubroutine?, extend, hmark]

theorem generateAll_eq (names : NameTable) (es : List Expr) (c : Code) :
    generateAll names es c = c.extend (emittedAll names es c.labels) := by
  cases es with
  | nil => simp [generateAll, emittedAll, extend]
  | cons e es =>
    simp [generateAll, emittedAll, generate_eq names e c, generateAll_eq names es, extend]

end

end Expr

/-! ## Labels -/

/-- The lines mark labels above `n` up to `m`, each once at most, and jump to labels that they
    mark. -/
structure Ordered (n m : Nat) (cs : List CodeLine) : Prop where
  le : n ≤ m
  once : ∀ id, cs.count (.label id) ≤ if n < id ∧ id ≤ m then 1 else 0
  closed : ∀ (c : Command) (id : Int), .jump c id ∈ cs → ∃ k : Nat, id = k ∧ .label k ∈ cs

namespace Ordered

variable {n m : Nat} {ds : List CodeLine}

theorem perm (h : Ordered n m cs) (hp : cs.Perm ds) : Ordered n m ds where
  le := h.le
  once id := by
    rw [← hp.count_eq]
    exact h.once id
  closed c id hj := by
    obtain ⟨k, hk, hl⟩ := h.closed c id (hp.mem_iff.2 hj)
    exact ⟨k, hk, hp.mem_iff.1 hl⟩

theorem append (h : Ordered n m cs) (h' : Ordered m k ds) : Ordered n k (cs ++ ds) where
  le := Nat.le_trans h.le h'.le
  once id := by
    have hc := h.once id
    have hd := h'.once id
    have hle := h.le
    have hle' := h'.le
    rw [count_append]
    split_ifs at hc hd ⊢ <;> omega
  closed c id hj := by
    rcases mem_append.1 hj with hj | hj
    · obtain ⟨k, hk, hl⟩ := h.closed c id hj
      exact ⟨k, hk, mem_append_left _ hl⟩
    · obtain ⟨k, hk, hl⟩ := h'.closed c id hj
      exact ⟨k, hk, mem_append_right _ hl⟩

theorem of_plain (n : Nat) (h : ∀ c ∈ cs, ∃ i, c = .plain i) : Ordered n n cs where
  le := Nat.le_refl n
  once id := by
    rw [count_eq_zero_of_not_mem]
    · exact Nat.zero_le _
    · intro hmem
      obtain ⟨i, hi⟩ := h _ hmem
      exact absurd hi (by simp)
  closed c id hj := by
    obtain ⟨i, hi⟩ := h _ hj
    exact absurd hi (by simp)

theorem pos_of_mem (h : Ordered n m cs) (hl : .label id ∈ cs) : 0 < id := by
  have hc := h.once id
  have : 0 < cs.count (.label id) := count_pos_iff.2 hl
  split_ifs at hc <;> omega

end Ordered

/-- One addition behind another. -/
def Emitted.append (x y : Emitted) : Emitted :=
  ⟨x.stream ++ y.stream, x.subroutines ++ y.subroutines, y.labels⟩

/-- All lines that are added. -/
def Emitted.all (x : Emitted) : List CodeLine := x.stream ++ x.subroutines.flatten

theorem plain_sumPrologue (index : Bytes) : ∀ c ∈ sumPrologue index, ∃ i, c = .plain i := by
  simp [sumPrologue, moveToLocal, smallNumber]

/-- The lines of a condition's own, apart from those of its parts. -/
def conditionLines (n : Nat) : List CodeLine :=
  [.plain (.plain .ifTrue), .jump .gtol (n + 1 : Nat), .jump .gtol (n + 2 : Nat), .label (n + 1),
    .label (n + 2)]

/-- The lines of a sum's own, apart from those of its parts. -/
def sumLines (index : Bytes) (n : Nat) : List CodeLine :=
  .jump .xeql (n + 1 : Nat) :: .label (n + 1) ::
    (sumPrologue index ++ sumTest (n + 2) (n + 3) ++ sumEpilogue index (n + 2) (n + 3))

theorem ordered_conditionLines (n : Nat) : Ordered n (n + 2) (conditionLines n) where
  le := by omega
  once id := by
    simp only [conditionLines, count_cons, count_nil, beq_iff_eq, reduceCtorEq, if_false,
      label.injEq]
    split_ifs <;> omega
  closed c id hj := by
    simp only [conditionLines, mem_cons, jump.injEq, reduceCtorEq, false_or,
      not_mem_nil, or_false] at hj
    rcases hj with ⟨-, rfl⟩ | ⟨-, rfl⟩
    · exact ⟨n + 1, rfl, by simp [conditionLines]⟩
    · exact ⟨n + 2, rfl, by simp [conditionLines]⟩

theorem ordered_sumLines (index : Bytes) (n : Nat) : Ordered n (n + 3) (sumLines index n) where
  le := by omega
  once id := by
    have hprologue : (sumPrologue index).count (.label id) = 0 :=
      count_eq_zero_of_not_mem fun h => by
        obtain ⟨i, hi⟩ := plain_sumPrologue index _ h
        exact absurd hi (by simp)
    simp only [sumLines, sumTest, sumEpilogue, smallNumber, count_append, count_cons,
      count_nil, hprologue, beq_iff_eq, reduceCtorEq, if_false, label.injEq]
    split_ifs <;> omega
  closed c id hj := by
    have hprologue : jump c id ∉ sumPrologue index := fun h => by
      obtain ⟨i, hi⟩ := plain_sumPrologue index _ h
      exact absurd hi (by simp)
    simp only [sumLines, sumTest, sumEpilogue, smallNumber, mem_append, mem_cons,
      jump.injEq, reduceCtorEq, false_or, not_mem_nil, or_false, hprologue] at hj
    rcases hj with ⟨-, rfl⟩ | ⟨-, rfl⟩ | ⟨-, rfl⟩
    · exact ⟨n + 1, rfl, by simp [sumLines]⟩
    · exact ⟨n + 3, rfl, by simp [sumLines, sumEpilogue]⟩
    · exact ⟨n + 2, rfl, by simp [sumLines, sumTest]⟩

namespace Ordered

variable {n m : Nat} {x y : Emitted}

theorem snoc (h : Ordered n x.labels x.all) (hp : ∀ c ∈ cs, ∃ i, c = .plain i) :
    Ordered n x.labels (Emitted.all ⟨x.stream ++ cs, x.subroutines, x.labels⟩) := by
  refine (h.append (.of_plain _ hp)).perm (perm_iff_count.2 fun a => ?_)
  simp only [Emitted.all, count_append]
  omega

theorem seq (h : Ordered n x.labels x.all) (h' : Ordered x.labels y.labels y.all) :
    Ordered n (x.append y).labels (x.append y).all := by
  refine (h.append h').perm (perm_iff_count.2 fun a => ?_)
  simp only [Emitted.all, Emitted.append, count_append, flatten_append]
  omega

end Ordered

namespace Expr

theorem perm_conditional (names : NameTable) (p : Nat) (condition yes no : Expr) (n : Nat) :
    let x := condition.emitted names (n + 2)
    let y := no.emitted names x.labels
    let z := yes.emitted names y.labels
    (conditionLines n ++ (x.all ++ y.all ++ z.all)).Perm
      (emitted names (conditional p condition yes no) n).all := by
  refine perm_iff_count.2 fun a => ?_
  simp only [emitted, conditionLines, Emitted.all, count_append, count_cons,
    count_nil, flatten_append]
  omega

theorem perm_sigma (names : NameTable) (p : Nat) (index : Bytes) (first last step body : Expr)
    (n : Nat) :
    let x := last.emitted names (n + 3)
    let y := step.emitted names x.labels
    let z := first.emitted names y.labels
    let w := body.emitted names z.labels
    (sumLines index n ++ (x.all ++ y.all ++ z.all ++ w.all)).Perm
      (emitted names (sigma p index first last step body) n).all := by
  refine perm_iff_count.2 fun a => ?_
  simp only [emitted, sumLines, Emitted.all, count_append, count_cons, count_nil,
    flatten_append, flatten_cons, flatten_nil]
  omega

mutual

theorem ordered_emitted (names : NameTable) (e : Expr) (n : Nat) :
    Ordered n (e.emitted names n).labels (e.emitted names n).all := by
  cases e with
  | literal | var | fetch | solving => exact .of_plain n (by simp [emitted, Emitted.all])
  | group p e | tagged p name e =>
    rw [emitted]
    exact ordered_emitted names e n
  | unary p op e =>
    rw [emitted]
    exact (ordered_emitted names e n).snoc (by cases op <;> simp [UnaryOp.lines])
  | apply p fn e | assign p name e | item p name e bracket =>
    rw [emitted]
    exact (ordered_emitted names e n).snoc (by simp)
  | binary p op l r =>
    rw [emitted]
    exact ((ordered_emitted names l n).seq (ordered_emitted names r _)).snoc (by simp)
  | extremum p greatest es | call p name es =>
    rw [emitted]
    exact (ordered_emittedAll names es n).snoc (by simp)
  | conditional p condition yes no =>
    have hparts := ((ordered_emitted names condition (n + 2)).append
      (ordered_emitted names no _)).append (ordered_emitted names yes _)
    exact ((ordered_conditionLines n).append hparts).perm (perm_conditional ..)
  | sigma p index first last step body =>
    have hparts := (((ordered_emitted names last (n + 3)).append
      (ordered_emitted names step _)).append (ordered_emitted names first _)).append
        (ordered_emitted names body _)
    exact ((ordered_sumLines index n).append hparts).perm (perm_sigma ..)

theorem ordered_emittedAll (names : NameTable) (es : List Expr) (n : Nat) :
    Ordered n (emittedAll names es n).labels (emittedAll names es n).all := by
  cases es with
  | nil => exact .of_plain n (by simp [emittedAll, Emitted.all])
  | cons e es =>
    rw [emittedAll]
    exact (ordered_emitted names e n).seq (ordered_emittedAll names es _)

end

end Expr

/-! ## Lines in their places -/

namespace Code

/-- The number of program lines that the lines become; labels are none. -/
def width : List CodeLine → Nat
  | [] => 0
  | .label _ :: rest => width rest
  | _ :: rest => width rest + 1

@[simp]
theorem width_append (cs ds : List CodeLine) : width (cs ++ ds) = width cs + width ds := by
  induction cs with
  | nil => simp [width]
  | cons c cs ih => cases c <;> simp [width, ih] <;> omega

theorem width_perm {ds : List CodeLine} (h : cs.Perm ds) : width cs = width ds := by
  induction h with
  | nil => rfl
  | cons c _ ih => cases c <;> simp [width, ih]
  | swap c d cs => cases c <;> cases d <;> rfl
  | trans _ _ ih ih' => exact ih.trans ih'

theorem width_emitted_pos (names : NameTable) (e : Expr) (n : Nat) :
    0 < width (e.emitted names n).stream := by
  cases e with
  | literal | var | fetch | solving => simp [Expr.emitted, width]
  | group p e | tagged p name e =>
    exact width_emitted_pos names e n
  | unary p op e =>
    rw [Expr.emitted, width_append]
    exact Nat.add_pos_left (width_emitted_pos names e n) _
  | binary | conditional | sigma =>
    simp only [Expr.emitted, width_append, width]
    omega
  | _ => simp [Expr.emitted, width]

theorem length_le_width_emittedAll (names : NameTable) (es : List Expr) (n : Nat) :
    es.length ≤ width (Expr.emittedAll names es n).stream := by
  induction es generalizing n with
  | nil => exact Nat.zero_le _
  | cons e es ih =>
    have hhead := width_emitted_pos names e n
    have htail := ih (e.emitted names n).labels
    rw [Expr.emittedAll, width_append, length_cons]
    omega

/-- The program lines, for given numbers of the lines behind labels. -/
def instrs (lineOf : Nat → Nat) : List CodeLine → List Instr
  | [] => []
  | .label _ :: rest => instrs lineOf rest
  | .plain i :: rest => i :: instrs lineOf rest
  | .jump c id :: rest => .withNum c (.ofNat (lineOf id.toNat)) :: instrs lineOf rest

theorem instrs_append (lineOf : Nat → Nat) (cs ds : List CodeLine) :
    instrs lineOf (cs ++ ds) = instrs lineOf cs ++ instrs lineOf ds := by
  induction cs with
  | nil => rfl
  | cons c cs ih => cases c <;> simp [instrs, ih]

@[simp]
theorem length_instrs (lineOf : Nat → Nat) (cs : List CodeLine) :
    (instrs lineOf cs).length = width cs := by
  induction cs with
  | nil => rfl
  | cons c cs ih => cases c <;> simp [instrs, width, ih]

/-- The lines stand in the code from line `a` on, counted from zero. Labels have the number of the
    line behind them, counted from one. -/
def Laid (code : List Instr) (lineOf : Nat → Nat) : Nat → List CodeLine → Prop
  | _, [] => True
  | a, .label id :: rest => lineOf id = a + 1 ∧ Laid code lineOf a rest
  | a, .plain i :: rest => code[a]? = some i ∧ Laid code lineOf (a + 1) rest
  | a, .jump c id :: rest =>
    code[a]? = some (.withNum c (.ofNat (lineOf id.toNat))) ∧ Laid code lineOf (a + 1) rest

theorem laid_append (cs ds : List CodeLine) :
    Laid code lineOf a (cs ++ ds) ↔ Laid code lineOf a cs ∧ Laid code lineOf (a + width cs) ds := by
  induction cs generalizing a with
  | nil => simp [Laid, width]
  | cons c cs ih =>
    cases c <;> simp [Laid, width, ih, and_assoc, Nat.add_assoc, Nat.add_comm]

theorem Laid.le (h : Laid code lineOf a cs) (hpos : 0 < width cs) : a + width cs ≤ code.length := by
  induction cs generalizing a with
  | nil => exact absurd hpos (by simp [width])
  | cons c cs ih =>
    cases c with
    | label id => exact ih h.2 hpos
    | plain i | jump c id =>
      have hlt := (List.getElem?_eq_some_iff.1 h.1).1
      rw [width]
      · rcases Nat.eq_zero_or_pos (width cs) with hzero | hmore
        · omega
        · have := ih h.2 hmore
          omega
      · simp

/-! ## The table of labels -/

theorem labelLines_append (k : Nat) (cs ds : List CodeLine) :
    labelLines k (cs ++ ds) = labelLines k cs ++ labelLines (k + width cs) ds := by
  induction cs generalizing k with
  | nil => simp [labelLines, width]
  | cons c cs ih =>
    cases c <;> simp [labelLines, width, ih, Nat.add_assoc, Nat.add_comm]

theorem mem_labelLines {line : Nat} (h : (id, line) ∈ labelLines k cs) :
    .label id ∈ cs ∧ line ≤ k + width cs := by
  induction cs generalizing k with
  | nil => exact absurd h (by simp [labelLines])
  | cons c cs ih =>
    cases c with
    | label id' =>
      rcases mem_cons.1 h with h | h
      · obtain ⟨rfl, rfl⟩ := Prod.mk.inj h
        exact ⟨mem_cons_self, Nat.le_add_right _ _⟩
      · exact ⟨mem_cons_of_mem _ (ih h).1, (ih h).2⟩
    | plain i | jump c id' =>
      rw [labelLines] at h
      · have hle := (ih h).2
        refine ⟨mem_cons_of_mem _ (ih h).1, ?_⟩
        rw [width]
        · omega
        · simp
      · simp

theorem find?_labelLines (h : .label id ∉ cs) :
    (labelLines k cs).reverse.find? (·.1 = id) = none := by
  rw [find?_eq_none]
  intro x hx hid
  have hid : x.1 = id := by simpa using hid
  exact h (hid ▸ (mem_labelLines (mem_reverse.1 hx)).1)

/-- A label that is not marked again has the number of the line behind it. -/
theorem lineOf?_labelLines (pre post : List CodeLine) (h : .label id ∉ post) :
    lineOf? (labelLines k (pre ++ .label id :: post)) id = some (k + width pre) := by
  rw [labelLines_append, labelLines, lineOf?, reverse_append, reverse_cons,
    append_assoc, find?_append, find?_labelLines h]
  simp

/-- The number of the line behind a label; zero for a label that is not marked. -/
def lineIn (all : List CodeLine) (id : Nat) : Nat := (lineOf? (labelLines 1 all) id).getD 0

theorem lineIn_le (cs : List CodeLine) (id : Nat) :
    lineIn (cs ++ [returnLine]) id ≤ width (cs ++ [returnLine]) := by
  have hwidth : width (cs ++ [returnLine]) = width cs + 1 := width_append _ _
  have hlabels : labelLines 1 (cs ++ [returnLine]) = labelLines 1 cs := by
    rw [labelLines_append]
    exact append_nil _
  rw [lineIn, lineOf?, hlabels, hwidth]
  cases hfind : (labelLines 1 cs).reverse.find? (·.1 = id) with
  | none => exact Nat.zero_le _
  | some entry =>
    have hmem := mem_reverse.1 (mem_of_find?_eq_some hfind)
    have := (@mem_labelLines entry.1 1 cs entry.2 hmem).2
    simp only [Option.map_some, Option.getD_some]
    omega

variable {m : Nat} {all : List CodeLine}

theorem not_mem_of_once {pre post : List CodeLine} (h : Ordered 0 m (pre ++ .label id :: post)) :
    .label id ∉ post := by
  intro hmem
  have hone := h.once id
  have hpos : 0 < post.count (.label id) := count_pos_iff.2 hmem
  rw [count_append, count_cons_self] at hone
  split_ifs at hone <;> omega

theorem lineIn_eq {pre post : List CodeLine} (h : Ordered 0 m (pre ++ .label id :: post)) :
    lineIn (pre ++ .label id :: post) id = width pre + 1 := by
  rw [lineIn, lineOf?_labelLines pre post (not_mem_of_once h), Option.getD_some, Nat.add_comm]

theorem resolveLines_eq (h : Ordered 0 m all) (rest : List CodeLine) (hsub : rest ⊆ all) :
    resolveLines (labelLines 1 all) rest = .ok (instrs (lineIn all) rest) := by
  induction rest with
  | nil => rfl
  | cons c rest ih =>
    have htail := ih fun d hd => hsub (mem_cons_of_mem _ hd)
    cases c with
    | label id =>
      exact htail
    | plain i => simp [resolveLines, instrs, htail, bind, Except.bind, pure, Except.pure]
    | jump c id =>
      obtain ⟨k, rfl, hk⟩ := h.closed c id (hsub mem_cons_self)
      have hpos : 0 < k := h.pos_of_mem hk
      obtain ⟨pre, post, rfl⟩ := append_of_mem hk
      have hline := lineOf?_labelLines (k := 1) pre post (not_mem_of_once h)
      simp [resolveLines, instrs, htail, hpos, lineIn, hline, bind, Except.bind, pure, Except.pure]

theorem laid_instrs (h : Ordered 0 m all) (pre rest : List CodeLine) (hall : all = pre ++ rest) :
    Laid (instrs (lineIn all) all) (lineIn all) (width pre) rest := by
  induction rest generalizing pre with
  | nil => trivial
  | cons c rest ih =>
    have htail := ih (pre ++ [c]) (by rw [hall, append_assoc, singleton_append])
    have hhead : ∀ i more, instrs (lineIn all) (c :: rest) = i :: more →
        (instrs (lineIn all) all)[width pre]? = some i := by
      intro i more hi
      rw [← length_instrs (lineIn all) pre]
      nth_rewrite 2 [hall]
      rw [instrs_append, hi, getElem?_append_right (Nat.le_refl _), Nat.sub_self]
      rfl
    rw [width_append] at htail
    cases c with
    | label id =>
      refine ⟨?_, htail⟩
      subst hall
      exact lineIn_eq h
    | plain i => exact ⟨hhead i _ rfl, htail⟩
    | jump c id => exact ⟨hhead _ _ rfl, htail⟩

/-- What holds of all lines before jumps got their numbers holds afterwards. -/
theorem forall_instrs {P : Instr → Prop} (hplain : ∀ i, .plain i ∈ all → P i)
    (hjump : ∀ c id, jump c id ∈ all → P (.withNum c (.ofNat (lineOf id.toNat)))) :
    ∀ i ∈ instrs lineOf all, P i := by
  induction all with
  | nil => simp [instrs]
  | cons c all ih =>
    have htail := ih (fun i hi => hplain i (mem_cons_of_mem _ hi))
      fun c id hc => hjump c id (mem_cons_of_mem _ hc)
    cases c with
    | label id => exact htail
    | plain i => exact forall_mem_cons.2 ⟨hplain i mem_cons_self, htail⟩
    | jump c id => exact forall_mem_cons.2 ⟨hjump c id mem_cons_self, htail⟩

/-! ## Complete programs -/

theorem count_subroutines (subs : List (List CodeLine)) (l : CodeLine) :
    (subs.flatMap (returnLine :: ·)).count l
      = (replicate subs.length returnLine).count l + subs.flatten.count l := by
  induction subs with
  | nil => rfl
  | cons sub subs ih =>
    rw [flatMap_cons, length_cons, replicate_succ, flatten_cons]
    simp only [cons_append, count_append, count_cons, ih]
    omega

theorem laid_subroutines (subs : List (List CodeLine))
    (h : Laid code lineOf a (subs.flatMap (returnLine :: ·) ++ [returnLine])) :
    code[a]? = some (.plain .rtn) ∧
      ∀ sub ∈ subs, ∃ k, Laid code lineOf k (sub ++ [returnLine]) := by
  induction subs generalizing a with
  | nil => exact ⟨h.1, by simp⟩
  | cons sub subs ih =>
    rw [flatMap_cons, append_assoc, cons_append] at h
    obtain ⟨hret, hrest⟩ := h
    obtain ⟨hsub, hmore⟩ := (laid_append sub _).1 hrest
    obtain ⟨hnext, hall⟩ := ih hmore
    refine ⟨hret, fun s hs => ?_⟩
    rcases mem_cons.1 hs with rfl | hs
    · exact ⟨a + 1, (laid_append s _).2 ⟨hsub, hnext, trivial⟩⟩
    · exact hall s hs

end Code

namespace Expr

variable (names : NameTable) (e : Expr)

theorem lines_program :
    (e.program names).lines = .plain (.withNum .func 11) :: ((e.emitted names 0).stream ++
      ((e.emitted names 0).subroutines.flatMap (returnLine :: ·) ++ [returnLine])) := by
  rw [program, generate_eq]
  simp [lines, main, extend, add, emit]

/-- The lines of a whole program are those of the expression, the declaration and returns. -/
theorem perm_lines : ((.plain (.withNum .func 11) ::
    replicate ((e.emitted names 0).subroutines.length + 1) returnLine) ++
      (e.emitted names 0).all).Perm (e.program names).lines := by
  refine perm_iff_count.2 fun a => ?_
  rw [lines_program]
  simp only [Emitted.all, cons_append, count_append, count_cons,
    count_subroutines, replicate_succ, count_nil]
  omega

theorem ordered_lines : ∃ m, Ordered 0 m (e.program names).lines := by
  have hplain : ∀ c ∈ plain (.withNum .func 11) ::
      replicate ((e.emitted names 0).subroutines.length + 1) returnLine,
      ∃ i, c = .plain i := by
    intro c hc
    rcases mem_cons.1 hc with rfl | hc
    · exact ⟨_, rfl⟩
    · exact ⟨_, eq_of_mem_replicate hc⟩
  exact ⟨_, ((Ordered.of_plain 0 hplain).append (ordered_emitted names e 0)).perm
    (e.perm_lines names)⟩

theorem resolve_eq : (e.program names).resolve
    = .ok (instrs (lineIn (e.program names).lines) (e.program names).lines) := by
  obtain ⟨m, h⟩ := e.ordered_lines names
  exact resolveLines_eq h _ (List.Subset.refl _)

/-- A compiled expression: the declaration of its input and output, its own lines, a return, and
    its subroutines with a return behind each. -/
theorem resolve_program : ∃ code lineOf, (e.program names).resolve = .ok code ∧
    code[0]? = some (.withNum .func 11) ∧
    Code.Laid code lineOf 1 (e.emitted names 0).stream ∧
    code[1 + width (e.emitted names 0).stream]? = some (.plain .rtn) ∧
    ∀ sub ∈ (e.emitted names 0).subroutines,
      ∃ k, Code.Laid code lineOf k (sub ++ [returnLine]) := by
  obtain ⟨m, h⟩ := e.ordered_lines names
  have hlaid := laid_instrs h [] (e.program names).lines rfl
  refine ⟨_, lineIn (e.program names).lines, e.resolve_eq names, ?_⟩
  generalize lineIn (e.program names).lines = lineOf at hlaid ⊢
  generalize instrs lineOf (e.program names).lines = code at hlaid ⊢
  rw [lines_program] at hlaid
  obtain ⟨hfunc, hrest⟩ := hlaid
  obtain ⟨hstream, hsubs⟩ := (laid_append _ _).1 hrest
  obtain ⟨hreturn, hall⟩ := laid_subroutines _ hsubs
  exact ⟨hfunc, hstream, hreturn, hall⟩

theorem width_emitted_lt (hcode : (e.program names).resolve = .ok code) :
    width (e.emitted names 0).all < code.length := by
  rw [resolve_eq, Except.ok.injEq] at hcode
  rw [← hcode, length_instrs, ← width_perm (e.perm_lines names), width_append, width]
  · omega
  · simp

/-- What holds of every line that the compiler adds holds of every line of the program. -/
theorem forall_program {P : Instr → Prop} (hcode : (e.program names).resolve = .ok code)
    (hfunc : P (.withNum .func 11)) (hreturn : P (.plain .rtn))
    (hplain : ∀ i, .plain i ∈ (e.emitted names 0).all → P i)
    (hjump : ∀ c id n, n ≤ code.length → jump c id ∈ (e.emitted names 0).all →
      P (.withNum c (.ofNat n))) : ∀ i ∈ code, P i := by
  rw [resolve_eq, Except.ok.injEq] at hcode
  subst hcode
  have hmem : ∀ c ∈ (e.program names).lines, c = .plain (.withNum .func 11) ∨
      c = returnLine ∨ c ∈ (e.emitted names 0).all := by
    intro c hc
    rw [← (e.perm_lines names).mem_iff, cons_append, mem_cons, mem_append] at hc
    rcases hc with hc | hc | hc
    · exact .inl hc
    · exact .inr (.inl (eq_of_mem_replicate hc))
    · exact .inr (.inr hc)
  refine forall_instrs (fun i hi => ?_) fun c id hc => ?_
  · rcases hmem _ hi with h | h | h
    · obtain rfl := plain.inj h
      exact hfunc
    · obtain rfl := plain.inj h
      exact hreturn
    · exact hplain i h
  · rcases hmem _ hc with h | h | h
    · cases h
    · cases h
    · refine hjump c id _ ?_ h
      rw [length_instrs]
      exact lineIn_le _ _

end Expr

end Keystroke
