import Keystroke.Proofs.Compile.Simulation
import Keystroke.Proofs.Store.Editor

set_option autoImplicit false

/-! # Storing compiled code

Every line that the compiler adds for a tree with proper names can be stored when the lines of its
calls can (`Expr.meets_emitted`); those of standard calls can. Compiling into a new slot succeeds
unless memory is limited, and the slot then holds exactly the lines of the code
(`Expr.compile_cases`). -/

namespace Keystroke

open Operation List Instr Code

variable {i : Instr} {code : List Instr} {pc : Int} {names : NameTable}

/-! ## Lines that can be stored -/

/-- Whether lines of the compiler may have the command: it can be stored, ends no program, and has
    nothing to do with labels. -/
def Command.isOrdinary (c : Command) : Bool :=
  c.code ≤ maxCode && c != .number && c != .endLine && c != .lbl && c != .gto && c != .xeq

/-- The line names no entry of the label table, and if it is a number then its text has no zero
    byte. -/
structure Instr.Literal (i : Instr) : Prop where
  resolved : i.operand.kind ≠ .labelIndex
  spelling : i.command = .number → 0 ∉ i.numberText

/-- The line can be put into a program as it is. -/
structure Instr.Placeable (i : Instr) : Prop extends i.Literal where
  storable : ∃ bytes, i.encode = .ok bytes
  notEnd : i.command ≠ .endLine

/-- The line can be put into a program and changes no label table. -/
structure Instr.Emittable (i : Instr) : Prop extends i.Placeable where
  notLabel : i.command = .lbl → i.operand.kind ≠ .text

/-- The line can be stored, and has nothing to do with labels. -/
structure Instr.Storable (i : Instr) : Prop extends i.WellFormed where
  notLbl : i.command ≠ .lbl
  notGto : i.command ≠ .gto
  notXeq : i.command ≠ .xeq

namespace Instr

variable {c : Command}

theorem WellFormed.placeable (h : i.WellFormed) : i.Placeable :=
  ⟨⟨h.kind_ne, h.spelling⟩, h.storable, h.notEnd⟩

theorem Storable.emittable (h : i.Storable) : i.Emittable :=
  ⟨h.toWellFormed.placeable, fun hlbl => absurd hlbl h.notLbl⟩

theorem Storable.of_isOrdinary (hc : i.command.isOrdinary = true)
    (hpositive : ¬ (i.operand.kind = .num ∧ i.operand.num < 0)) (hsigned : i.operand.kind ≠ .negNum)
    {operand : Bytes} (ho : operandBytes i.operand = .ok operand) : i.Storable := by
  simp only [Command.isOrdinary, Bool.and_eq_true, decide_eq_true_eq, bne_iff_ne] at hc
  obtain ⟨⟨⟨⟨⟨hcode, hnum⟩, hend⟩, hlbl⟩, hgto⟩, hxeq⟩ := hc
  have hnorm : i.normalize.operand = i.operand := by
    rw [normalize, if_neg (by simpa using hpositive), if_pos hnum]
  exact
    { storable := ⟨_, encode_eq_ok_iff.2 ⟨hcode, operand, by rw [hnorm]; exact ho, rfl⟩⟩
      notEnd := hend
      signed := hsigned
      real := fun h => absurd h hnum
      spelling := fun h => absurd h hnum
      notLbl := hlbl
      notGto := hgto
      notXeq := hxeq }

theorem storable_plain (hc : c.isOrdinary = true) : (plain c).Storable :=
  .of_isOrdinary hc (by simp [plain]) (by simp [plain]) rfl

theorem storable_withName {name : Bytes} (hc : c.isOrdinary = true)
    (hname : name.length ≤ maxNameLength) : (withName c name).Storable := by
  have hshort : ¬ maxTextLength < name.length := Nat.not_lt.2 hname
  exact .of_isOrdinary hc (by simp [withName]) (by simp [withName]) (if_neg hshort)

theorem storable_withNum {n : Nat} (hc : c.isOrdinary = true) (hn : n < 2147483648) :
    (withNum c (.ofNat n)).Storable := by
  have hpos : ¬ Int32.ofNat n < 0 := by
    have hword : (Int32.ofNat n).toInt = n := by
      rw [Int32.toInt_ofNat', Int.bmod_eq_of_le] <;> simp only [Int32.size] <;> omega
    rw [Int32.lt_iff_toInt_lt, hword]
    simp
  exact .of_isOrdinary hc (by simp [withNum, hpos]) (by simp [withNum]) (if_neg hpos)

theorem storable_ofNumber (value : UInt64) {text : Bytes} (htext : 0 ∉ text) :
    (ofNumber value text).Storable := by
  have hoperand : ∃ operand, operandBytes (numberOperand { kind := .real, value := value })
      = .ok operand := by
    unfold numberOperand
    split
    · split
      · next n _ hn =>
        simp only [Bool.and_eq_true, decide_eq_true_eq] at hn
        have hpos : ∀ m : Int, 0 ≤ m → m ≤ 2147483647 → ¬ Int32.ofInt m < 0 := by
          intro m h0 hm
          rw [Int32.lt_iff_toInt_lt, Int32.toInt_ofInt_of_le (by omega) (by omega)]
          simpa using h0
        split
        · exact ⟨_, if_neg (hpos n (by omega) hn.2)⟩
        · exact ⟨_, if_neg (hpos (-n) (by omega) (by omega))⟩
      · exact ⟨_, rfl⟩
    · exact ⟨_, rfl⟩
  obtain ⟨operand, ho⟩ := hoperand
  have hcommand : (ofNumber value text).command = .number := rfl
  exact
    { storable := ⟨_, encode_eq_ok_iff.2 ⟨by rw [hcommand]; decide, operand, by
        exact ho, rfl⟩⟩
      notEnd := by rw [hcommand]; decide
      signed := by simp [ofNumber]
      real := fun _ => rfl
      spelling := fun _ => htext
      notLbl := by rw [hcommand]; decide
      notGto := by rw [hcommand]; decide
      notXeq := by rw [hcommand]; decide }

theorem emittable_plain {c : Command} (hcode : c.code ≤ Command.maxCode) (hend : c ≠ .endLine) :
    (plain c).Emittable := by
  have hstorable : ∃ bytes, (plain c).encode = .ok bytes := by
    by_cases hn : c = .number
    · -- without an operand the line is that of the number zero
      have hnorm : (plain .number).normalize
          = (ofNumber (Binary64.ofInt 0) []).normalize := rfl
      rw [hn, encode_congr rfl (by rw [hnorm]) (by rw [hnorm])
        fun _ => by rw [hnorm]]
      exact (storable_ofNumber (Binary64.ofInt 0) not_mem_nil).storable
    · have hnorm : (plain c).normalize = .plain c := by simp [normalize, plain, hn]
      exact ⟨_, encode_eq_ok_iff.2 ⟨hcode, [], by rw [hnorm]; rfl, rfl⟩⟩
  exact ⟨⟨⟨by simp [plain], by simp [plain]⟩, hstorable, hend⟩, by simp [plain]⟩

theorem emittable_call {name : Bytes} (hname : ProperName name) :
    (withName .xeq name).Emittable := by
  have hshort : ¬ maxTextLength < name.length := Nat.not_lt.2 hname.short
  have hnorm : (withName .xeq name).normalize = .withName .xeq name := by
    simp [normalize, withName, Command.xeq, Command.number]
  have hcode : Command.xeq.code ≤ Command.maxCode := by decide
  have hend : Command.xeq ≠ .endLine := by decide
  have hlbl : Command.xeq ≠ .lbl := by decide
  exact ⟨⟨⟨by simp [withName], by simp [withName]⟩,
    ⟨_, encode_eq_ok_iff.2 ⟨hcode, _, by rw [hnorm]; exact if_neg hshort, rfl⟩⟩, hend⟩,
    fun h => absurd h hlbl⟩

end Instr

/-- The line has the property, and a jump is one that can be stored once labels are resolved. -/
def CodeLine.Meets (P : Instr → Prop) : CodeLine → Prop
  | .plain i => P i
  | .label _ => True
  | .jump c _ => c.isOrdinary = true

theorem CodeLine.Meets.mono {P Q : Instr → Prop} (hPQ : ∀ i, P i → Q i) {c : CodeLine}
    (h : c.Meets P) : c.Meets Q := by
  cases c with
  | plain i => exact hPQ i h
  | label id => trivial
  | jump c id => exact h

theorem storable_conditionLines (n : Nat) : ∀ c ∈ conditionLines n, c.Meets Instr.Storable := by
  simp only [conditionLines, forall_mem_cons, not_mem_nil, IsEmpty.forall_iff,
    implies_true, and_true]
  exact ⟨storable_plain rfl, rfl, rfl, trivial, trivial⟩

theorem storable_sumLines {index : Bytes} (hindex : index.length ≤ maxNameLength) (n : Nat) :
    ∀ c ∈ sumLines index n, c.Meets Instr.Storable := by
  have hname : ∀ {c : Command}, c.isOrdinary = true →
      CodeLine.Meets Instr.Storable (.plain (.withName c index)) :=
    fun hc => storable_withName hc hindex
  have hown : ∀ {c : Command} {name : Bytes}, c.isOrdinary = true →
      name ∈ [stepName, countName, totalName] →
        CodeLine.Meets Instr.Storable (.plain (.withName c name)) := by
    intro c name hc hmem
    refine storable_withName hc ?_
    fin_cases hmem <;> decide
  have hplain : ∀ {c : Command}, c.isOrdinary = true →
      CodeLine.Meets Instr.Storable (.plain (.plain c)) :=
    fun hc => storable_plain hc
  simp only [sumLines, sumPrologue, moveToLocal, sumTest, sumEpilogue,
    cons_append, nil_append, forall_mem_cons, not_mem_nil, IsEmpty.forall_iff,
    implies_true, and_true]
  repeat' apply And.intro
  all_goals first
    | exact trivial
    | exact rfl
    | exact storable_ofNumber _ not_mem_nil
    | exact hname rfl
    | exact hown rfl (by decide)
    | exact hplain rfl

/-! ## The lines of an expression -/

namespace Expr

open CodeLine

theorem storable_callLine {name : Bytes} {n : Nat}
    (h : (NameTable.standard.command? name n).isSome) :
    (callLine .standard name n).Storable := by
  obtain ⟨c, hc⟩ := Option.isSome_iff_exists.1 h
  rw [callLine, hc]
  refine storable_plain ?_
  rcases Job.standard_cases hc with ⟨-, -, rfl⟩ | ⟨-, -, rfl⟩ | ⟨-, -, rfl⟩ | ⟨-, -, rfl⟩ |
    ⟨-, -, rfl⟩ <;> rfl

section

variable {P : CodeLine → Prop} {x y : Emitted} {w : Nat} (hx : width x.all ≤ w → ∀ c ∈ x.all, P c)

include hx

theorem forall_snoc {cs : List CodeLine} (hcs : ∀ c ∈ cs, P c)
    (hw : width (Emitted.all ⟨x.stream ++ cs, x.subroutines, x.labels⟩) ≤ w) :
    ∀ c ∈ Emitted.all ⟨x.stream ++ cs, x.subroutines, x.labels⟩, P c := by
  simp only [Emitted.all, width_append, mem_append] at hw hx ⊢
  have hx := hx (by omega)
  rintro c ((hc | hc) | hc)
  · exact hx c (.inl hc)
  · exact hcs c hc
  · exact hx c (.inr hc)

theorem forall_append (hy : width y.all ≤ w → ∀ c ∈ y.all, P c)
    (hw : width (x.append y).all ≤ w) : ∀ c ∈ (x.append y).all, P c := by
  simp only [Emitted.all, Emitted.append, flatten_append, width_append, mem_append] at hw hx hy ⊢
  have hx := hx (by omega)
  have hy := hy (by omega)
  rintro c ((hc | hc) | (hc | hc))
  · exact hx c (.inl hc)
  · exact hy c (.inl hc)
  · exact hx c (.inr hc)
  · exact hy c (.inr hc)

end

section

/-- The property holds of the lines that can be stored and of those that count up to `w`. -/
structure Admits (w : Nat) (P : Instr → Prop) : Prop where
  storable : ∀ i : Instr, i.Storable → P i
  counting : ∀ {c : Command} {m : Nat}, c.isOrdinary = true → m ≤ w → P (.withNum c (.ofNat m))

variable {names : NameTable} {w : Nat} {P : Instr → Prop}

mutual

/-- Lines with proper names can be stored, and so can all lines when those of the calls and those
    that count up to `w` can. -/
theorem meets_emitted (hP : Admits w P) {n : Nat} (e : Expr) (hp : e.Proper)
    (hcalls : ∀ c ∈ e.calls, ProperName c.1 → P (callLine names c.1 c.2))
    (hw : width (e.emitted names n).all ≤ w) :
    ∀ c ∈ (e.emitted names n).all, c.Meets P := by
  cases e with
  | literal p value text =>
    simp only [emitted, Emitted.all, flatten_nil, append_nil, forall_mem_singleton]
    exact hP.storable _ (storable_ofNumber _ hp.2)
  | var p name | fetch p name | solving p name =>
    simp only [emitted, Emitted.all, flatten_nil, append_nil, forall_mem_singleton]
    exact hP.storable _ (storable_withName rfl hp.short)
  | group p e | tagged p name e =>
    rw [emitted] at hw ⊢
    exact meets_emitted hP e hp hcalls hw
  | unary p op e =>
    rw [emitted] at hw ⊢
    refine forall_snoc (meets_emitted hP e hp hcalls) ?_ hw
    cases op with
    | pos => exact fun c hc => absurd hc not_mem_nil
    | neg | not => exact forall_mem_singleton.2 (hP.storable _ (storable_plain rfl))
  | apply p fn e =>
    rw [emitted] at hw ⊢
    exact forall_snoc (meets_emitted hP e hp hcalls)
      (forall_mem_singleton.2 (hP.storable _ (storable_plain (by cases fn <;> rfl)))) hw
  | assign p name e | item p name e bracket =>
    rw [emitted] at hw ⊢
    exact forall_snoc (meets_emitted hP e hp.2 hcalls)
      (forall_mem_singleton.2 (hP.storable _ (storable_withName rfl hp.1.short))) hw
  | binary p op l r =>
    rw [calls] at hcalls
    rw [emitted] at hw ⊢
    refine forall_snoc (x := Emitted.append _ _) (forall_append
      (meets_emitted hP l hp.1 fun c hc => hcalls c (mem_append_left _ hc))
      (meets_emitted hP r hp.2 fun c hc => hcalls c (mem_append_right _ hc)))
      (forall_mem_singleton.2 (hP.storable _ (storable_plain ?_))) hw
    cases op <;> rfl
  | extremum p greatest es =>
    rw [emitted] at hw ⊢
    have hmany := length_le_width_emittedAll names es n
    refine forall_snoc (meets_emittedAll hP es hp hcalls) (forall_mem_singleton.2 ?_) hw
    simp only [Emitted.all, width_append] at hw
    exact hP.counting (by cases greatest <;> rfl) (by omega)
  | call p name es =>
    rw [calls] at hcalls
    rw [emitted] at hw ⊢
    exact forall_snoc (meets_emittedAll hP es hp.2 fun c hc => hcalls c (mem_cons_of_mem _ hc))
      (forall_mem_singleton.2 (hcalls _ mem_cons_self hp.1)) hw
  | conditional p condition yes no =>
    rw [calls] at hcalls
    have hperm := perm_conditional names p condition yes no n
    rw [← width_perm hperm] at hw
    simp only [width_append] at hw
    intro c hmem
    rw [← hperm.mem_iff] at hmem
    simp only [mem_append] at hmem
    rcases hmem with hmem | (hmem | hmem) | hmem
    · exact (storable_conditionLines n c hmem).mono hP.storable
    · exact meets_emitted hP condition hp.1 (fun c hc => hcalls c (by simp [hc])) (by omega) c hmem
    · exact meets_emitted hP no hp.2.2 (fun c hc => hcalls c (by simp [hc])) (by omega) c hmem
    · exact meets_emitted hP yes hp.2.1 (fun c hc => hcalls c (by simp [hc])) (by omega) c hmem
  | sigma p index first last step body =>
    rw [calls] at hcalls
    have hperm := perm_sigma names p index first last step body n
    rw [← width_perm hperm] at hw
    simp only [width_append] at hw
    obtain ⟨hindex, hfirst, hlast, hstep, hbody⟩ := hp
    intro c hmem
    rw [← hperm.mem_iff] at hmem
    simp only [mem_append] at hmem
    rcases hmem with hmem | ((hmem | hmem) | hmem) | hmem
    · exact (storable_sumLines hindex.short n c hmem).mono hP.storable
    · exact meets_emitted hP last hlast (fun c hc => hcalls c (by simp [hc])) (by omega) c hmem
    · exact meets_emitted hP step hstep (fun c hc => hcalls c (by simp [hc])) (by omega) c hmem
    · exact meets_emitted hP first hfirst (fun c hc => hcalls c (by simp [hc])) (by omega) c hmem
    · exact meets_emitted hP body hbody (fun c hc => hcalls c (by simp [hc])) (by omega) c hmem

theorem meets_emittedAll (hP : Admits w P) {n : Nat} (es : List Expr) (hp : ProperAll es)
    (hcalls : ∀ c ∈ callsAll es, ProperName c.1 → P (callLine names c.1 c.2))
    (hw : width (emittedAll names es n).all ≤ w) :
    ∀ c ∈ (emittedAll names es n).all, c.Meets P := by
  cases es with
  | nil => simp [emittedAll, Emitted.all]
  | cons e es =>
    rw [callsAll] at hcalls
    rw [emittedAll] at hw ⊢
    exact forall_append
      (meets_emitted hP e hp.1 fun c hc => hcalls c (mem_append_left _ hc))
      (meets_emittedAll hP es hp.2 fun c hc => hcalls c (mem_append_right _ hc)) hw

end

end

end Expr

/-! ## Lines behind each other -/

/-- The line is what is stored for the instruction. -/
structure Line.Stores (l : Line) (i : Instr) : Prop where
  code : i.encode = .ok l.bytes
  instr : l.instr = i.stored
  command : l.header.command = i.command

theorem Instr.Placeable.exists_writes (h : i.Placeable) : ∃ l : Line, l.Writes i := by
  obtain ⟨bytes, hcode⟩ := h.storable
  obtain ⟨l, -, hl⟩ := Instr.exists_writes hcode h.spelling
  exact ⟨l, hl⟩

theorem Line.Writes.stores {l : Line} (h : l.Writes i) (hi : i.WellFormed) : l.Stores i :=
  ⟨h.code, h.instr.trans (readBack_of_wellFormed hi), h.command⟩

theorem Line.forall₂_stores {ls : List Line} (h : List.Forall₂ Line.Writes ls code)
    (hcode : ∀ i ∈ code, i.Storable) : List.Forall₂ Line.Stores ls code := by
  rw [forall₂_iff_zip] at h ⊢
  exact ⟨h.1, fun hmem => (h.2 hmem).stores (hcode _ (of_mem_zip hmem).2).toWellFormed⟩

namespace Line.Stores

variable {l : Line}

theorem size_eq (h : l.Stores i) : l.size = i.size := by
  rw [Instr.size, h.code, Line.size]

theorem isEnd_eq (h : l.Stores i) (hi : i.Storable) : l.isEnd = false := by
  rw [← Bool.not_eq_true, Line.isEnd_iff, h.command]
  exact hi.notEnd

theorem fresh (h : l.Stores i) (hi : i.Storable) : l.Fresh := ⟨i, hi.toWellFormed, h.code⟩

end Line.Stores

namespace Store

variable {s : Store} {ref : ProgramRef} {p : Program} {front : List Line} {l : Line}

/-- Without a limit, memory is there for everything that offsets reach. -/
structure Unlimited (s : Store) : Prop where
  limit : s.options.memoryLimit ≤ 0
  initial : s.options.initialCapacity ≤ maxCapacity

theorem Denied.not_unlimited {held need : Nat} {e : Error} (h : s.Denied held need e)
    (hneed : 2 * need ≤ maxCapacity) : ¬ s.Unlimited := by
  intro hs
  have hmore := h.more
  have hinitial := hs.initial
  have hlimit := hs.limit
  rcases h.fault with ⟨-, hpos⟩ | ⟨-, hbig⟩ <;> omega

theorem Unlimited.of_options {t : Store} (hs : s.Unlimited) (h : t.options = s.options) :
    t.Unlimited :=
  ⟨h ▸ hs.limit, h ▸ hs.initial⟩

/-- Lines are stored one behind the other: all that can be put in, unless memory is limited. -/
theorem storeLines_cases (hp : s.program? ref = some p) (he : s.generatedEdits ≠ 0)
    (hl : p.Holds front) (hunknown : ∀ l ∈ front, l.target = targetUnknown) (hpc : IsLast front pc)
    (hcode : ∀ i ∈ code, i.Literal) (hend : ∀ i ∈ code, i.command = .endLine → ∀ n, ref ≠ .user n)
    (hread : ∀ i ∈ code, i.Relabels → Readable s.programs) :
    (∃ ls p' s', storeLines ref pc code s = .ok () s' ∧ s'.Agree (s.setProgram ref p') ∧
      p'.Holds (front ++ ls) ∧ List.Forall₂ Line.Writes ls code) ∨
    ∃ e s', storeLines ref pc code s = .error e s' ∧ ((∀ i ∈ code, i.Placeable) →
      2 * ((textOf front).length + (code.map Instr.size).sum + 2) ≤ maxCapacity →
        ¬ s.Unlimited) := by
  induction code generalizing s p front pc with
  | nil =>
    exact .inl ⟨[], p, s, rfl, by rw [setProgram_self hp]; exact .refl s, by simpa using hl, .nil⟩
  | cons i code ih =>
    obtain ⟨hi, hrest⟩ := forall_mem_cons.1 hcode
    have hresolved : s.resolved? i = some i := by rw [resolved?, if_neg hi.resolved]
    have hinserted := inserted_last hp hl hpc hi.spelling fun i' hi' => by
      obtain rfl := Option.some.inj (hresolved.symm.trans hi')
      exact hread i mem_cons_self
    have hlen := hl.length
    have hmost : (maxCapacity : Int) ≤ maxOffset := by decide
    generalize hrun : insertAfter ref pc i s = r at hinserted
    cases hinserted with
    | @line i' l p1 s1 hres _ hline hs1 hp1 _ _ =>
      obtain rfl := Option.some.inj (hresolved.symm.trans hres)
      have hunknown1 : ∀ m ∈ front ++ [l], m.target = targetUnknown :=
        forall_mem_put hline.target (by simpa using hunknown)
      have hprogram : s1.program? ref = some p1 := by
        rw [hs1.program?, program?_setProgram_self _ hp]
      have hoptions : s.options = s1.options := by rw [hs1.options, options_setProgram]
      have hedits : s1.generatedEdits ≠ 0 := by
        rw [hs1.generatedEdits]
        cases ref <;> exact he
      have hread1 : ∀ j ∈ code, j.Relabels → Readable s1.programs := by
        intro j hj hlabel
        rw [hs1.programs]
        exact (hread j (mem_cons_of_mem _ hj) hlabel).setProgram hp1.holds
      rw [placed_self] at hrun
      rcases ih hprogram hedits (hp1.holds_of_unknown hunknown1) hunknown1
        (.inr ⟨front, l, rfl, rfl⟩) hrest (fun j hj => hend j (mem_cons_of_mem _ hj)) hread1 with
        ⟨ls, p', s', hmore, hs', hp', hls⟩ | ⟨e, s', hmore, hlimited⟩
      · refine .inl ⟨l :: ls, p', s', ?_, ?_, by simpa using hp', .cons hline hls⟩
        · simp only [storeLines, hrun, hmore]
        · have h := hs1.setProgram ref p'
          rw [setProgram_setProgram] at h
          exact hs'.trans h
      · refine .inr ⟨e, s', by simp only [storeLines, hrun, hmore], fun hplace hroom hs => ?_⟩
        refine hlimited (fun j hj => hplace j (mem_cons_of_mem _ hj)) ?_
          (hs.of_options hoptions.symm)
        rw [map_cons, sum_cons, ← hline.size_eq, Line.size] at hroom
        simp only [textOf_append, textOf_cons, textOf_nil, append_nil, length_append]
        omega
    | split hsplit _ href => exact absurd href (hend i mem_cons_self hsplit _)
    | refused _ _ hcause =>
      refine .inr ⟨_, s, by simp only [storeLines, hrun]; rfl, fun hplace _ _ => ?_⟩
      have hi := hplace i mem_cons_self
      obtain ⟨bytes, hbytes⟩ := hi.storable
      rcases hcause with hclosed | hnone | ⟨-, hcause⟩ | ⟨hcause, -⟩
      · exact hclosed fun _ => he
      · cases hresolved.symm.trans hnone
      · exact hcause bytes i hresolved hbytes
      · exact hi.notEnd hcause
    | denied hasks hdenied =>
      refine .inr ⟨_, _, by simp only [storeLines, hrun]; rfl, fun hplace hroom => ?_⟩
      rw [Asks, if_neg (hplace i mem_cons_self).notEnd, storedSize_of_some hresolved] at hasks
      rw [map_cons, sum_cons] at hroom
      exact hdenied.not_unlimited (by omega)
    | unaddressable hfar =>
      refine .inr ⟨_, s, by simp only [storeLines, hrun]; rfl, fun _ hroom _ => ?_⟩
      omega

theorem room_of_small {n : Nat} (h : n < 2147483648) : 2 * (n + 2) ≤ maxCapacity := by
  rw [maxCapacity]
  omega

theorem storeInto_cases {c : Code} (hp : s.program? ref = some p) (hresolve : c.resolve = .ok code)
    (hcode : ∀ i ∈ code, i.Literal) (hend : ∀ i ∈ code, i.command = .endLine → ∀ n, ref ≠ .user n)
    (huser : ∀ n, ref = .user n → Readable s.programs)
    (hread : ∀ i ∈ code, i.Relabels → Readable s.programs) :
    (∃ ls p' s', c.storeInto ref s = .ok () s' ∧ s'.Agree (s.setProgram ref p') ∧
      p'.Holds ls ∧ List.Forall₂ Line.Writes ls code) ∨
    ∃ e s', c.storeInto ref s = .error e s' ∧ ((∀ i ∈ code, i.Placeable) →
      2 * ((code.map Instr.size).sum + 2) ≤ maxCapacity → ¬ s.Unlimited) := by
  have hp0 : s.openGenerated.program? ref = some p := by
    cases ref <;> exact hp
  obtain ⟨p1, s1, hclear, hs1, hp1, -⟩ := clearProgram_cases hp0
    (fun _ => Nat.succ_ne_zero s.generatedEdits) huser
  have hprogram : s1.program? ref = some p1 := by
    rw [hs1.program?, program?_setProgram_self _ hp0]
  have hread1 : ∀ i ∈ code, i.Relabels → Readable s1.programs := by
    intro i hi hlabel
    rw [hs1.programs]
    exact Readable.setProgram (hread i hi hlabel) hp1.holds
  have hedits : s1.generatedEdits ≠ 0 := by
    rw [hs1.generatedEdits]
    cases ref <;> exact Nat.succ_ne_zero _
  rw [storeInto, hresolve, bind_ok (Edit.ofExcept_ok code), withGeneratedEdit, bind_ok hclear]
  rcases storeLines_cases hprogram hedits hp1.holds (by simp) (.inl ⟨rfl, rfl⟩) hcode
      hend hread1 with
    ⟨ls, p', s', hrun, hs', hp', hls⟩ | ⟨e, s', hrun, hlimited⟩
  · refine .inl ⟨ls, p', s'.closeGenerated, by rw [hrun], ?_, hp', hls⟩
    have hagree := hs'.trans (hs1.setProgram ref p')
    rw [setProgram_setProgram] at hagree
    obtain ⟨hoptions, hprograms, hequations, hloading, hgenerated⟩ := hagree
    cases ref <;> exact ⟨hoptions, hprograms, hequations, hloading,
      by rw [closeGenerated, hgenerated]; rfl⟩
  · refine .inr ⟨e, s'.closeGenerated, by rw [hrun], fun hplace hroom hs => ?_⟩
    refine hlimited hplace (by simpa using hroom) (hs.of_options ?_)
    rw [hs1.options, options_setProgram]
    rfl

end Store

/-! ## Whole programs -/

namespace Expr

variable {e : Expr} {s : Store}

/-- The lines of a compiled expression can be stored, and so can all when those of its calls can. -/
theorem meets_program {P : Instr → Prop} (hP : ∀ i : Instr, i.Storable → P i) (hp : e.Proper)
    (hcalls : ∀ c ∈ e.calls, ProperName c.1 → P (callLine names c.1 c.2))
    (hcode : (e.program names).resolve = .ok code) (hlen : code.length < 2147483648) :
    ∀ i ∈ code, P i := by
  have hwidth := e.width_emitted_lt names hcode
  have hall := meets_emitted (n := 0) (w := 2147483647)
    ⟨hP, fun hc hm => hP _ (storable_withNum hc (by omega))⟩ e hp hcalls (by omega)
  refine e.forall_program names hcode ?_ (hP _ (storable_plain rfl)) (fun i hi => hall _ hi)
    fun c id n hn hc => hP _ (storable_withNum (hall _ hc) (by omega))
  exact hP _ (@storable_withNum .func 11 rfl (by decide))

/-- The same for what numbers of lines do not matter to, however many lines there are. -/
theorem meets_program_of_num {P : Instr → Prop} (hP : ∀ i : Instr, i.Storable → P i)
    (hnum : ∀ (c : Command) (n : Int32), P (withNum c n)) (hp : e.Proper)
    (hcalls : ∀ c ∈ e.calls, ProperName c.1 → P (callLine names c.1 c.2))
    (hcode : (e.program names).resolve = .ok code) : ∀ i ∈ code, P i := by
  have hall := meets_emitted (n := 0) ⟨hP, fun _ _ => hnum _ _⟩ e hp hcalls (Nat.le_refl _)
  exact e.forall_program names hcode (hnum _ _) (hP _ (storable_plain rfl)) (fun i hi => hall _ hi)
    fun _ _ _ _ _ => hnum _ _

/-- No line of a compiled expression names an entry of the label table, and no number has a zero
    byte in its text. -/
theorem spelled_program (hp : e.Proper) (hcode : (e.program names).resolve = .ok code) :
    ∀ i ∈ code, i.Literal := by
  refine meets_program_of_num (fun _ hi => ⟨hi.kind_ne, hi.spelling⟩)
    (fun _ _ => ⟨by simp [withNum], fun _ => not_mem_nil⟩) hp (fun c _ _ => ?_) hcode
  unfold callLine
  split <;> exact ⟨by simp [plain, withName], fun _ => not_mem_nil⟩

theorem storable_program (hp : e.Proper) (hcalls : ∀ c ∈ e.calls, (callLine names c.1 c.2).Storable)
    (hcode : (e.program names).resolve = .ok code) (hlen : code.length < 2147483647) :
    ∀ i ∈ code, i.Storable :=
  meets_program (fun _ hi => hi) hp (fun c hc _ => hcalls c hc) hcode (hlen.trans (by decide))

/-- Compiling gives a new slot that holds lines for the code. -/
def Compiled (R : Line → Instr → Prop) (e : Expr) (names : NameTable) (code : List Instr)
    (s : Store) : Prop :=
  ∃ (k : Nat) (ls : List Line) (p : Program) (s' : Store),
    e.compile names s = .ok (.equation k) s' ∧ s.program? (.equation k) = none ∧
    s'.program? (.equation k) = some p ∧ p.Holds ls ∧ List.Forall₂ R ls code ∧
    s'.options = s.options

/-- Compiling ends so, unless memory is limited. -/
theorem compile_cases (s : Store) (hresolve : (e.program names).resolve = .ok code)
    (hcode : ∀ i ∈ code, i.Emittable)
    (hroom : 2 * ((code.map size).sum + 2) ≤ Store.maxCapacity) :
    Compiled Line.Writes e names code s ∨
    ¬ s.Unlimited ∧ ∃ failure s', e.compile names s = .error failure s' := by
  rcases Store.newEquationSlot_cases s with ⟨p, hslot, -⟩ | ⟨failure, used, hslot, hdenied⟩
  · have hp := Store.program?_host (p := p) s.freeSlot_lt
    rcases Store.storeInto_cases hp hresolve (fun i hi => (hcode i hi).toLiteral)
        (fun _ _ _ _ => by simp) (by simp) (fun i hi hlabel => hlabel.elim
          (fun hend => absurd hend (hcode i hi).notEnd)
          fun hlbl => absurd hlbl.2 ((hcode i hi).notLabel hlbl.1)) with
      ⟨ls, p', s', hrun, hs', hls, hwrites⟩ | ⟨failure, s', hrun, hlimited⟩
    · refine .inl ⟨s.freeSlot, ls, p', s', ?_, s.slot?_freeSlot, ?_, hls, hwrites, hs'.options⟩
      · simp only [compile, bind, EStateM.bind, hslot, compileInto, hrun]
      · rw [hs'.program?, Store.program?_setProgram_self _ hp]
    · refine .inr ⟨fun hs => hlimited (fun i hi => (hcode i hi).toPlaceable) hroom
        (hs.of_options rfl), failure, ?_⟩
      simp only [compile, bind, EStateM.bind, hslot, compileInto, hrun]
      split
      · exact ⟨s', rfl⟩
      · cases Store.freeEquation (.equation s.freeSlot) s' with
        | ok _ s'' => exact ⟨s'', rfl⟩
        | error _ s'' => exact ⟨s'', rfl⟩
  · refine .inr ⟨hdenied.not_unlimited (by decide), failure, { s with used := used }, ?_⟩
    simp only [compile, bind, EStateM.bind, hslot]

theorem compile_eq_ok_of_emittable (hs : s.Unlimited)
    (hresolve : (e.program names).resolve = .ok code) (hcode : ∀ i ∈ code, i.Emittable)
    (hroom : 2 * ((code.map size).sum + 2) ≤ Store.maxCapacity) :
    Compiled Line.Writes e names code s :=
  (compile_cases s hresolve hcode hroom).resolve_right fun h => h.1 hs

theorem compile_eq_ok (hs : s.Unlimited) (hresolve : (e.program names).resolve = .ok code)
    (hcode : ∀ i ∈ code, i.Storable) (hsmall : (code.map size).sum < 2147483648) :
    Compiled Line.Stores e names code s := by
  obtain ⟨k, ls, p, s', hrun, hnone, hp, hls, hwrites, hoptions⟩ :=
    compile_eq_ok_of_emittable hs hresolve (fun i hi => (hcode i hi).emittable)
      (Store.room_of_small hsmall)
  exact ⟨k, ls, p, s', hrun, hnone, hp, hls, Line.forall₂_stores hwrites hcode, hoptions⟩

theorem slot_and_code_of_compile {ref : ProgramRef} {s' : Store}
    (h : e.compile names s = .ok ref s') :
    ∃ s1, Store.newEquationSlot s = .ok ref s1 ∧ e.compileInto names ref s1 = .ok () s' := by
  simp only [compile, bind, EStateM.bind] at h
  cases hslot : Store.newEquationSlot s with
  | error failure s1 => simp [hslot] at h
  | ok slot s1 =>
    rw [hslot] at h
    simp only at h
    split at h
    · next hcode =>
      obtain ⟨rfl, rfl⟩ := EStateM.Result.ok.inj h
      exact ⟨s1, rfl, hcode⟩
    · split at h
      · cases h
      · split at h <;> cases h

end Expr

end Keystroke
