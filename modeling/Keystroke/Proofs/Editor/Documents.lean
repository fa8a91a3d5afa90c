import Keystroke.Editor.Service
import Keystroke.Proofs.Compile.Ledger

set_option autoImplicit false

/-! # Slots of open documents

The service compiles the equations of all open documents into one session. Equations are kept across
updates when their fingerprints are, and hovering over a variable solves its equation and so takes
one more slot. Whatever the order of updates, hovers and closes, the slots that were taken since the
start are those of the equations of the open documents, each of which belongs to one equation only
(`Service.documents_own_slots`). -/

namespace Keystroke

variable {compat : Bool} {τ : Session} {name : Bytes}

open Operation List

/-! ## Association lists -/

namespace Assoc

variable {κ β : Type} [DecidableEq κ] {m : Assoc κ β}

theorem perm_put (hkeys : (m.map (·.1)).Nodup) (key : κ) (value : β) :
    (m.put key value).Perm ((key, value) :: m.remove key) := by
  induction m with
  | nil => exact .refl _
  | cons entry rest ih =>
    obtain ⟨other, v⟩ := entry
    obtain ⟨hother, hkeys⟩ := nodup_cons.1 hkeys
    by_cases hk : other = key
    · subst hk
      have hrest : remove ((other, v) :: rest) other = rest := by
        rw [remove, filter_cons_of_neg (by simp)]
        exact remove_of_not_mem hother
      rw [put, if_pos rfl, hrest]
    · have hrest : remove ((other, v) :: rest) key = (other, v) :: remove rest key := by
        rw [remove, filter_cons_of_pos (by simpa using hk)]
        rfl
      rw [put, if_neg hk, hrest]
      exact ((ih hkeys).cons _).trans (.swap _ _ _)

theorem put_of_find? {key : κ} {value : β} (h : m.find? key = some value) :
    m.put key value = m := by
  induction m with
  | nil => cases h
  | cons entry rest ih =>
    obtain ⟨other, v⟩ := entry
    by_cases hk : other = key
    · rw [find?, if_pos hk] at h
      rw [put, if_pos hk, Option.some.inj h]
    · rw [find?, if_neg hk] at h
      rw [put, if_neg hk, ih h]

end Assoc

namespace Editor

/-! ## Equations of a document -/

/-- Neither the expression nor what it gives when it is solved for one of its variables compiles to
    more bytes than a buffer can be grown to. -/
def Fits (s : Store) (names : NameTable) (e : Expr) : Prop :=
  ¬ s.options.Exceeded (s.compiledSize names e) ∧
    ∀ name ∈ e.vars, ∀ tree ∈ (e.isolate name).toOption,
      ¬ s.options.Exceeded (s.compiledSize names tree)

instance (o : Options) (n : Nat) : Decidable (o.Exceeded n) := inferInstanceAs (Decidable (_ ∨ _))

instance (s : Store) (names : NameTable) (e : Expr) : Decidable (Fits s names e) :=
  inferInstanceAs (Decidable (_ ∧ _))

/-- An equation that was compiled has a program, and one that was not has no slots. It is one that
    was read, with its fingerprint. -/
structure DocumentEquation.Sound (s0 : Store) (names : NameTable) (read : FileEquation → Prop)
    (e : DocumentEquation) : Prop where
  compiled : e.failure = none → e.equation.program ≠ .none ∧ e.equation.names = names ∧
    e.equation.tree.Emits names ∧ e.equation.Solved
  failed : e.failure ≠ none → e.equation.slots = [] ∧ s0.Refuses names e.equation.tree
  fits : Fits s0 names e.equation.tree
  origin : ∃ f, read f ∧ f.equation.fingerprint = e.fingerprint ∧ ∃ names program solutions,
    e.equation = { f.equation with names := names, program := program, solutions := solutions }

/-- All equations of the document are so, and they stand for those of its text. -/
structure Document.Sound (start : Service) (read : FileEquation → Prop) (uri : Bytes)
    (d : Document) : Prop where
  equations : ∀ e ∈ d.equations, e.Sound start.session.store start.names read
  stands : d.equations.map (fun e => (e.line, e.fingerprint))
    = (readEquations uri d.text start.compat).equations.map
        fun f => (f.line - 1, f.equation.fingerprint)

/-- The slots of equations. -/
def slotsOf (es : List DocumentEquation) : List ProgramRef := es.flatMap (·.equation.slots)

/-- The slots of documents. -/
def heldBy (documents : Assoc Bytes Document) : List ProgramRef :=
  documents.flatMap fun d => slotsOf d.2.equations

variable {s0 s : Store} {names : NameTable} {held others : List ProgramRef} {σ : Session}
  {read : FileEquation → Prop} {e : DocumentEquation} {es pool : List DocumentEquation}

@[simp]
theorem slotsOf_cons (e : DocumentEquation) (es : List DocumentEquation) :
    slotsOf (e :: es) = e.equation.slots ++ slotsOf es := rfl

theorem slotsOf_perm (h : es.Perm pool) : (slotsOf es).Perm (slotsOf pool) := h.flatMap_right _

theorem heldBy_perm {m m' : Assoc Bytes Document} (h : m.Perm m') : (heldBy m).Perm (heldBy m') :=
  h.flatMap_right _

theorem slotsOf_filter (h : ∀ e ∈ es, e.Sound s0 names read) :
    slotsOf (es.filter (·.failure.isNone)) = slotsOf es := by
  induction es with
  | nil => rfl
  | cons e es ih =>
    obtain ⟨he, hes⟩ := forall_mem_cons.1 h
    cases hfailure : e.failure with
    | none => rw [filter_cons_of_pos (by simp [hfailure]), slotsOf_cons, slotsOf_cons, ih hes]
    | some cause =>
      rw [filter_cons_of_neg (by simp [hfailure]), slotsOf_cons, ih hes,
        (he.failed (by simp [hfailure])).1, nil_append]

/-! ## Operations on the store -/

/-- An operation that does not count as an edit leaves the rest of the session alone. -/
theorem outcome_edit {α : Type} {op : Edit α} {Q : α → Store → Prop} {E : Error → Store → Prop}
    (h : Outcome Q E (op s)) (hQ : ∀ a t, Q a t → t.edits = s.edits)
    (hE : ∀ e t, E e t → t.edits = s.edits) :
    Outcome (fun a τ => ∃ t, τ = { σ with store := t } ∧ Q a t)
      (fun e τ => ∃ t, τ = { σ with store := t } ∧ E e t)
      (Session.edit op { σ with store := s }) := by
  generalize hrun : op s = r at h
  cases h with
  | ok h =>
    rw [Session.edit_of_ok hrun (hQ _ _ h)]
    exact .ok ⟨_, rfl, h⟩
  | error h =>
    rw [Session.edit_of_error hrun (hE _ _ h)]
    exact .error ⟨_, rfl, h⟩

namespace Service

theorem ledger_freeAll (h : s0.Ledger (slotsOf es ++ held) s)
    (hes : ∀ e ∈ es, e.Sound s0 names read) :
    ∃ t, freeAll es { σ with store := s } = { σ with store := t } ∧ s0.Ledger held t := by
  refine ⟨_, rfl, Equation.ledger_freeAll (by rwa [flatMap_map]) ?_⟩
  intro q hq hprogram
  obtain ⟨e, he, rfl⟩ := mem_map.1 hq
  exact ((hes e he).failed fun hok => ((hes e he).compiled hok).1 hprogram).1

/-! ## Updates -/

theorem perm_of_takeFrom {fingerprint : Bytes} {compat : Bool} {rest : List DocumentEquation}
    (h : takeFrom fingerprint compat pool = some (e, rest)) :
    pool.Perm (e :: rest) ∧ e.fingerprint = fingerprint := by
  induction pool generalizing e rest with
  | nil => cases h
  | cons first pool ih =>
    unfold takeFrom at h
    split at h
    · next hfirst =>
      split at h
      · obtain ⟨rfl, rfl⟩ := Prod.mk.inj (Option.some.inj h)
        exact ⟨.refl _, hfirst⟩
      · cases h
    · obtain ⟨⟨found, left⟩, hfound, heq⟩ := Option.map_eq_some_iff.1 h
      obtain ⟨rfl, rfl⟩ := Prod.mk.inj heq
      exact ⟨((ih hfound).1.cons first).trans (.swap _ _ _), (ih hfound).2⟩

/-- An equation that was read from a file: it has no programs yet. -/
structure New (s0 : Store) (names : NameTable) (read : FileEquation → Prop) (entry : FileEquation) :
    Prop where
  slots : entry.equation.slots = []
  fits : Fits s0 names entry.equation.tree
  read : read entry

theorem ledger_compileNew {entry : FileEquation}
    (hlabels : labelTable 0 s0.programs = .ok s0.labels) (hnew : New s0 names read entry)
    (h : s0.Ledger held s) :
    ∃ e t, compileNew names entry { σ with store := s } = .ok e { σ with store := t } ∧
      s0.Ledger (e.equation.slots ++ held) t ∧ e.Sound s0 names read ∧
      (e.line, e.fingerprint) = (entry.line - 1, entry.equation.fingerprint) := by
  have hcompile := Equation.ledger_compile h hlabels hnew.slots hnew.fits.1
  have hedit := outcome_edit (σ := σ) hcompile
    (fun _ _ ht => ht.1.edits.trans h.edits.symm) (fun _ _ ht => ht.2.1.edits.trans h.edits.symm)
  unfold compileNew
  generalize Session.edit (entry.equation.compile names) { σ with store := s } = r at hedit
  cases hedit with
  | @ok e _ h =>
    obtain ⟨t, rfl, hledger, hprogram, heq, hemits⟩ := h
    have hsolutions := map_eq_nil_iff.1 (append_eq_nil_iff.1 hnew.slots).1
    refine ⟨_, t, rfl, hledger, ⟨fun _ => ⟨hprogram, ?_⟩, nofun, ?_,
      entry, hnew.read, rfl, _, _, _, heq⟩, rfl⟩
    · rw [heq]
      exact ⟨rfl, hemits, by simp [Equation.Solved, hsolutions]⟩
    · rw [heq]
      exact hnew.fits
  | error h =>
    obtain ⟨t, rfl, hcrash, hledger, hrefuses⟩ := h
    refine ⟨_, t, if_neg (by simp [hcrash]), ?_, ⟨nofun, fun _ => ⟨hnew.slots, hrefuses⟩, hnew.fits,
      entry, hnew.read, rfl, _, _, _, rfl⟩, rfl⟩
    rw [hnew.slots]
    exact hledger

section

variable {entry : FileEquation} {entries : List FileEquation} {old : DocumentEquation}
  {more rest : List DocumentEquation} {τ υ : Session}

theorem compileAll_of_known
    (htake : takeFrom entry.equation.fingerprint entry.equation.compat pool = some (old, es))
    (hmore : compileAll names es entries σ = .ok (more, rest) τ) :
    compileAll names pool (entry :: entries) σ
      = .ok (⟨entry.line - 1, old.equation, entry.equation.fingerprint, none⟩ :: more, rest) τ := by
  unfold compileAll
  simp only [htake]
  rw [bind_ok hmore]
  rfl

theorem compileAll_of_new
    (htake : takeFrom entry.equation.fingerprint entry.equation.compat pool = none)
    (hnew : compileNew names entry σ = .ok e τ)
    (hmore : compileAll names pool entries τ = .ok (more, rest) υ) :
    compileAll names pool (entry :: entries) σ = .ok (e :: more, rest) υ := by
  unfold compileAll
  simp only [htake]
  rw [bind_ok hnew, bind_ok hmore]
  rfl

end

/-- Compiling the equations of a text keeps account of all slots: those of the equations that it
    gives, and of those that are left in the pool. -/
theorem ledger_compileAll (hlabels : labelTable 0 s0.programs = .ok s0.labels)
    (entries : List FileEquation) (hentries : ∀ entry ∈ entries, New s0 names read entry)
    (hpool : ∀ e ∈ pool, e.Sound s0 names read ∧ e.failure = none)
    (h : s0.Ledger (slotsOf pool ++ others) s) :
    ∃ es rest t, compileAll names pool entries { σ with store := s }
        = .ok (es, rest) { σ with store := t } ∧
      s0.Ledger (slotsOf es ++ (slotsOf rest ++ others)) t ∧ (∀ e ∈ es, e.Sound s0 names read) ∧
      (∀ e ∈ rest, e ∈ pool) ∧ es.map (fun e => (e.line, e.fingerprint))
        = entries.map fun f => (f.line - 1, f.equation.fingerprint) := by
  -- The slots of the first equation are among the others while the rest is compiled.
  have hgather (first es rest others : List ProgramRef) :
      (es ++ (rest ++ (first ++ others))).Perm (first ++ es ++ (rest ++ others)) := by
    rw [perm_iff_count]
    simp only [count_append]
    omega
  induction entries generalizing pool others s with
  | nil => exact ⟨[], pool, s, rfl, h, nofun, fun _ => id, rfl⟩
  | cons entry entries ih =>
    obtain ⟨hentry, hentries⟩ := forall_mem_cons.1 hentries
    cases htake : takeFrom entry.equation.fingerprint entry.equation.compat pool with
    | some found =>
      obtain ⟨old, pool'⟩ := found
      obtain ⟨hperm, hprint⟩ := perm_of_takeFrom htake
      obtain ⟨hold, hpool'⟩ := forall_mem_cons.1 fun e he => hpool e (hperm.mem_iff.2 he)
      have hledger : s0.Ledger (slotsOf pool' ++ (old.equation.slots ++ others)) s := by
        refine h.perm (((slotsOf_perm hperm).append_right others).trans ?_)
        rw [slotsOf_cons, append_assoc]
        exact perm_append_comm_assoc _ _ _
      obtain ⟨es, rest, t, hrun, ht, hes, hrest, hstands⟩ := ih hentries hpool' hledger
      refine ⟨_, rest, t, compileAll_of_known htake hrun, ht.perm (hgather _ _ _ _), ?_, ?_,
        by rw [map_cons, map_cons, hstands]⟩
      · refine forall_mem_cons.2 ⟨?_, hes⟩
        exact ⟨fun _ => hold.1.compiled hold.2, nofun, hold.1.fits, hprint ▸ hold.1.origin⟩
      · exact fun e he => hperm.mem_iff.2 (mem_cons_of_mem _ (hrest e he))
    | none =>
      obtain ⟨e, t, hcompile, hledger, hsound, hstand⟩ :=
        ledger_compileNew (σ := σ) hlabels hentry h
      obtain ⟨es, rest, u, hrun, hu, hes, hrest, hstands⟩ := ih hentries hpool
        (hledger.perm (perm_append_comm_assoc _ _ _))
      refine ⟨e :: es, rest, u, compileAll_of_new htake hcompile hrun, hu.perm (hgather _ _ _ _),
        forall_mem_cons.2 ⟨hsound, hes⟩, hrest,
        by rw [map_cons, map_cons, hstand, hstands]⟩

/-- Compiling the equations of a new text over the old ones gives up the slots of those that are
    gone. -/
theorem ledger_recompile (hlabels : labelTable 0 s0.programs = .ok s0.labels)
    {entries : List FileEquation} (hentries : ∀ entry ∈ entries, New s0 names read entry)
    {old : List DocumentEquation} (hold : ∀ e ∈ old, e.Sound s0 names read)
    (h : s0.Ledger (slotsOf old ++ others) s) :
    ∃ es t, recompile names old entries { σ with store := s } = .ok es { σ with store := t } ∧
      s0.Ledger (slotsOf es ++ others) t ∧ (∀ e ∈ es, e.Sound s0 names read) ∧
      es.map (fun e => (e.line, e.fingerprint))
        = entries.map fun f => (f.line - 1, f.equation.fingerprint) := by
  have hpool (e : DocumentEquation) (he : e ∈ old.filter (·.failure.isNone)) :
      e.Sound s0 names read ∧ e.failure = none := by
    obtain ⟨hmem, hnone⟩ := mem_filter.1 he
    exact ⟨hold e hmem, by simpa using hnone⟩
  rw [← slotsOf_filter hold] at h
  obtain ⟨es, rest, t, hrun, ht, hes, hrest, hstands⟩ :=
    ledger_compileAll (σ := σ) hlabels entries hentries hpool h
  obtain ⟨u, hfree, hu⟩ := ledger_freeAll (σ := σ) (ht.perm (perm_append_comm_assoc _ _ _))
    fun e he => (hpool e (hrest e he)).1
  refine ⟨es, u, ?_, hu, hes, hstands⟩
  rw [recompile, bind_ok hrun]
  change EStateM.Result.ok es (freeAll rest { σ with store := t }) = _
  rw [hfree]

/-! ## Reading a text -/

theorem slots_of_parse {source : Bytes} {e : Equation} (h : Equation.parse compat source = .ok e) :
    e.slots = [] := by
  obtain ⟨t, -, rfl⟩ := Equation.exists_of_parse h
  rfl

/-- The equations of a text are read from their sources, and their lines are numbered upwards. -/
theorem readEquationLines_new (file : Bytes) (compat : Bool) (n : Nat) (lines : List Bytes) :
    (readEquationLines file compat n lines).equations.Pairwise (·.line < ·.line) ∧
      ∀ entry ∈ (readEquationLines file compat n lines).equations,
        n ≤ entry.line ∧ Equation.parse compat entry.equation.source = .ok entry.equation := by
  induction lines generalizing n with
  | nil => exact ⟨.nil, nofun⟩
  | cons line lines ih =>
    obtain ⟨hpairwise, hmore⟩ := ih (n + 1)
    have hmore' : ∀ entry ∈ (readEquationLines file compat (n + 1) lines).equations,
        n ≤ entry.line ∧ Equation.parse compat entry.equation.source = .ok entry.equation :=
      fun entry hentry => ⟨Nat.le_of_succ_le (hmore entry hentry).1, (hmore entry hentry).2⟩
    unfold readEquationLines
    split
    · exact ⟨hpairwise, hmore'⟩
    · split
      · next e hparse =>
        have hsource : e.source = line := by
          obtain ⟨t, -, rfl⟩ := Equation.exists_of_parse hparse
          rfl
        exact ⟨.cons (fun entry hentry => (hmore entry hentry).1) hpairwise,
          forall_mem_cons.2 ⟨⟨Nat.le_refl n, by rw [hsource, hparse]⟩, hmore'⟩⟩
      · exact ⟨hpairwise, hmore'⟩

/-! ## Services -/

/-- What a service has become: the slots that were taken are those of its documents. -/
structure Sound (start : Service) (read : Bytes → FileEquation → Prop) (s : Service) : Prop where
  rest : s = { start with
    session := { start.session with store := s.session.store }, documents := s.documents }
  ledger : start.session.store.Ledger (heldBy s.documents) s.session.store
  uris : (s.documents.map (·.1)).Nodup
  documents : ∀ d ∈ s.documents, Document.Sound start (read d.1) d.1 d.2

section

variable {start s : Service} {read : Bytes → FileEquation → Prop} {uri : Bytes} {d : Document}
  {t : Store}

theorem nodup_lines (h : Document.Sound start (read uri) uri d) :
    (d.equations.map (·.line)).Nodup := by
  have hlines := congrArg (map Prod.fst) h.stands
  rw [map_map, map_map] at hlines
  obtain ⟨hpairwise, hentries⟩ := readEquationLines_new uri start.compat 1 (linesOf d.text)
  refine (show d.equations.map (·.line) = _ from hlines) ▸ pairwise_map.2
    (hpairwise.imp_of_mem fun ha hb hlt => ?_)
  have hpos := (hentries _ ha).1
  dsimp only [Function.comp]
  omega

theorem Sound.split (h : start.Sound read s) (hfind : s.documents.find? uri = some d) :
    start.session.store.Ledger (slotsOf d.equations ++ heldBy (s.documents.remove uri))
      s.session.store ∧ Document.Sound start (read uri) uri d := by
  have hperm := Assoc.perm_put h.uris uri d
  rw [Assoc.put_of_find? hfind] at hperm
  exact ⟨h.ledger.perm (heldBy_perm hperm), h.documents _ (hperm.mem_iff.2 mem_cons_self)⟩

theorem Sound.put (h : start.Sound read s) (hd : Document.Sound start (read uri) uri d)
    (ht : start.session.store.Ledger (slotsOf d.equations ++ heldBy (s.documents.remove uri)) t) :
    start.Sound read { s with
      session := { start.session with store := t }, documents := s.documents.put uri d } := by
  have hperm := Assoc.perm_put h.uris uri d
  have hkept (entry : Bytes × Document) (hentry : entry ∈ s.documents.remove uri) :
      entry ∈ s.documents := mem_of_mem_filter hentry
  refine ⟨?_, ht.perm (heldBy_perm hperm).symm, ?_, fun entry hentry => ?_⟩
  · rw [h.rest]
  · refine (hperm.map (·.1)).symm.nodup (nodup_cons.2 ⟨?_, ?_⟩)
    · simp [Assoc.remove]
    · exact h.uris.sublist (filter_sublist.map _)
  · rcases mem_cons.1 (hperm.mem_iff.1 hentry) with rfl | hentry
    · exact hd
    · exact h.documents entry (hkept entry hentry)

theorem Sound.remove (h : start.Sound read s)
    (ht : start.session.store.Ledger (heldBy (s.documents.remove uri)) t) :
    start.Sound read { s with
      session := { start.session with store := t }, documents := s.documents.remove uri } :=
  ⟨by rw [h.rest], ht, h.uris.sublist (filter_sublist.map _),
    fun entry hentry => h.documents entry (mem_of_mem_filter hentry)⟩

theorem work?_of_ok {α : Type} {op : Machine α} {a : α} (hlive : s.stopped = false)
    (hrun : op s.session = .ok a τ) : s.work? op = (some a, { s with session := τ }) := by
  simp only [work?, hlive, hrun, Bool.false_eq_true, if_false]

theorem Sound.session_eq (h : start.Sound read s) :
    s.session = { start.session with store := s.session.store } := congrArg Service.session h.rest

theorem Sound.update (h : start.Sound read s) (hlive : start.stopped = false)
    (hlabels : labelTable 0 start.session.store.programs = .ok start.session.store.labels)
    {text : Bytes} (hfits : ∀ entry ∈ (readEquations uri text start.compat).equations,
      Fits start.session.store start.names entry.equation.tree)
    (hread : ∀ entry ∈ (readEquations uri text start.compat).equations, read uri entry) :
    start.Sound read (s.update uri text).2 := by
  have hlive' : s.stopped = false := by rw [h.rest, hlive]
  have hnames : s.names = start.names := by rw [h.rest]
  have hcompat : s.compat = start.compat := by rw [h.rest]
  have hnew (entry : FileEquation)
      (hentry : entry ∈ (readEquations uri text start.compat).equations) :
      New start.session.store start.names (read uri) entry :=
    ⟨slots_of_parse ((readEquationLines_new uri start.compat 1 _).2 entry hentry).2,
      hfits entry hentry, hread entry hentry⟩
  obtain ⟨old, hold, holdEq, hledger⟩ : ∃ old : List DocumentEquation,
      (∀ e ∈ old, e.Sound start.session.store start.names (read uri)) ∧
      ((s.documents.find? uri).map (·.equations)).getD [] = old ∧
      start.session.store.Ledger (slotsOf old ++ heldBy (s.documents.remove uri))
        s.session.store := by
    cases hfind : s.documents.find? uri with
    | none =>
      refine ⟨[], nofun, rfl, ?_⟩
      rw [Assoc.remove_of_not_mem (Assoc.find?_eq_none_iff.1 hfind)]
      exact h.ledger
    | some d =>
      obtain ⟨hledger, hd⟩ := h.split hfind
      exact ⟨d.equations, hd.equations, rfl, hledger⟩
  obtain ⟨es, t, hrun, ht, hes, hstands⟩ :=
    ledger_recompile (σ := start.session) hlabels hnew hold hledger
  rw [← h.session_eq] at hrun
  unfold Service.update
  dsimp only
  rw [hnames, hcompat, holdEq, work?_of_ok hlive' hrun]
  exact h.put ⟨hes, hstands⟩ ht

theorem Sound.close (h : start.Sound read s) (hlive : start.stopped = false) :
    start.Sound read (s.close uri) := by
  have hlive' : s.stopped = false := by rw [h.rest, hlive]
  unfold Service.close
  cases hfind : s.documents.find? uri with
  | none => exact h
  | some d =>
    obtain ⟨hledger, hd⟩ := h.split hfind
    obtain ⟨t, hfree, ht⟩ := ledger_freeAll (σ := start.session) hledger hd.equations
    rw [← h.session_eq] at hfree
    have hrun : (modify (freeAll d.equations) : Machine Unit) s.session
        = .ok () { start.session with store := t } := congrArg (EStateM.Result.ok ()) hfree
    dsimp only
    rw [work?_of_ok (s := { s with documents := s.documents.remove uri }) hlive' hrun]
    exact h.remove ht

/-! ## Hovering -/

/-- What is said about solving an equation for a variable. -/
def tellSolution (names : NameTable) (q : Equation) (name : Bytes) : Bytes :=
  solvedText name
    (((q.tree.isolate name).toOption.filter (·.Emits names)).map (·.print q.compat))

/-- Solving an equation of a document gives the text of what it gives for the variable. -/
theorem ledger_solution {read : FileEquation → Prop}
    (hlabels : labelTable 0 s0.programs = .ok s0.labels) (he : e.Sound s0 names read)
    (hok : e.failure = none) (hname : name ∈ e.equation.tree.vars) {s : Store}
    (h : s0.Ledger (e.equation.slots ++ others) s) :
    Outcome
      (fun r τ => ∃ t, τ = { σ with store := t } ∧ s0.Ledger (r.2.slots ++ others) t ∧
        r.2 = { e.equation with solutions := r.2.solutions } ∧ r.2.Solved ∧
        solvedText name (some r.1) = tellSolution names e.equation name)
      (fun _ τ => ∃ t, τ = { σ with store := t } ∧ s0.Ledger (e.equation.slots ++ others) t ∧
        ∀ tree, e.equation.tree.isolate name = .ok tree → s0.Refuses names tree)
      (solution e.equation name { σ with store := s }) := by
  obtain ⟨hprogram, rfl, -, hsolved⟩ := he.compiled hok
  have hsolve := Equation.ledger_solveFor h hprogram hsolved hlabels name fun tree htree =>
    he.fits.2 name hname tree (by rw [htree]; rfl)
  have hedit := outcome_edit (σ := σ) hsolve
    (fun _ _ ht => ht.1.edits.trans h.edits.symm) (fun _ _ ht => ht.1.edits.trans h.edits.symm)
  refine hedit.bind fun r τ hr => ?_
  obtain ⟨t, rfl, hledger, heq, hsolved, tree, htree, hemits⟩ := hr
  obtain ⟨ref, q⟩ := r
  dsimp only at hledger heq hsolved ⊢
  rw [show q.tree = e.equation.tree by rw [heq], show q.compat = e.equation.compat by rw [heq],
    htree]
  refine .ok ⟨t, rfl, hledger, heq, hsolved, ?_⟩
  rw [tellSolution, htree]
  simp [Except.toOption, Option.filter, hemits]

theorem map_replace {front back : List DocumentEquation} (q : Equation)
    (h : ((front ++ e :: back).map (·.line)).Nodup) :
    (front ++ e :: back).map (fun known =>
      if known.line = e.line then { known with equation := q } else known)
      = front ++ { e with equation := q } :: back := by
  have hother {es : List DocumentEquation} (hes : ∀ known ∈ es, known.line ≠ e.line) :
      es.map (fun known => if known.line = e.line then { known with equation := q } else known)
        = es := by
    refine (map_congr_left fun known hknown => if_neg (hes known hknown)).trans ?_
    exact map_id es
  rw [map_append, map_cons, nodup_append, nodup_cons] at h
  obtain ⟨-, ⟨hback, -⟩, hfront⟩ := h
  rw [map_append, map_cons, if_pos rfl, hother, hother]
  · exact fun known hknown heq => hback (heq ▸ mem_map_of_mem hknown)
  · exact fun known hknown => hfront _ (mem_map_of_mem hknown) _ mem_cons_self

section

variable (h : start.Sound read s) (hlive : start.stopped = false) (hlabels : labelTable 0
  start.session.store.programs = .ok start.session.store.labels)

include h hlive hlabels

/-- A parameter is described with what the equation gives for it, if that can be compiled. -/
theorem Sound.describeParameter (hfind : s.documents.find? uri = some d) (he : e ∈ d.equations)
    (hname : name ∈ e.equation.tree.vars) :
    start.Sound read (s.describeParameter uri d e name).2 ∧
      ((∀ tree, e.equation.tree.isolate name = .ok tree →
          start.session.store.Refuses start.names tree → ¬ tree.Emits start.names) →
        (s.describeParameter uri d e name).1 = parameterIntro e.equation name
          ++ if e.failure = none then tellSolution start.names e.equation name else []) := by
  have hlive' : s.stopped = false := by rw [h.rest, hlive]
  obtain ⟨hledger, hd⟩ := h.split hfind
  have hsound := hd.equations e he
  obtain ⟨front, back, hsplit⟩ := append_of_mem he
  -- The slots of the equation, apart from those of the others.
  have hslots (q : Equation) : (slotsOf (front ++ { e with equation := q } :: back)
        ++ heldBy (s.documents.remove uri)).Perm
      (q.slots ++ (slotsOf (front ++ back) ++ heldBy (s.documents.remove uri))) := by
    rw [← append_assoc]
    exact (slotsOf_perm perm_middle).append_right _
  unfold Service.describeParameter
  split
  · next hfailure =>
    rw [if_neg (Option.isSome_iff_ne_none.1 hfailure), append_nil]
    exact ⟨h, fun _ => rfl⟩
  · next hfailure =>
    have hok : e.failure = none := by simpa using hfailure
    have hown := hledger.perm (hsplit ▸ hslots e.equation)
    have hsolution := ledger_solution (σ := start.session) hlabels hsound hok hname hown
    rw [← h.session_eq] at hsolution
    generalize hrun : solution e.equation name s.session = r at hsolution
    cases hsolution with
    | @ok r _ hr =>
      obtain ⟨t, rfl, ht, heq, hsolved, htext⟩ := hr
      have hmap := map_replace r.2 (hsplit ▸ nodup_lines hd)
      rw [work?_of_ok hlive' hrun]
      dsimp only [replaceEquation]
      refine ⟨?_, fun _ => by rw [if_pos hok, htext]⟩
      rw [hsplit, hmap]
      refine h.put ⟨fun known hknown => ?_, ?_⟩ (ht.perm (hslots r.2).symm)
      · rcases mem_append.1 hknown with hfront | hrest
        · exact hd.equations known (hsplit ▸ mem_append_left _ hfront)
        rcases mem_cons.1 hrest with rfl | hback
        · obtain ⟨f, hf, hprint, names, program, solutions, heq'⟩ := hsound.origin
          obtain ⟨hprogram, hnames, hemits, -⟩ := hsound.compiled hok
          have htree : r.2.tree = e.equation.tree := by rw [heq]
          refine ⟨fun _ => ⟨by rw [heq]; exact hprogram, by rw [heq]; exact hnames, ?_, hsolved⟩,
            fun hfailed => absurd hok hfailed, ?_,
            f, hf, hprint, names, program, r.2.solutions, heq.trans (by rw [heq'])⟩
          · exact htree.symm ▸ hemits
          · exact htree.symm ▸ hsound.fits
        · exact hd.equations known (hsplit ▸ mem_append_right _ (mem_cons_of_mem _ hback))
      · have hstands := hd.stands
        rw [hsplit] at hstands
        simpa using hstands
    | error hr =>
      obtain ⟨t, rfl, ht, hrefused⟩ := hr
      have hsame := h.put hd (ht.perm (hsplit ▸ (hslots e.equation).symm))
      rw [Assoc.put_of_find? hfind] at hsame
      rw [work?, if_neg (by simp [hlive']), hrun]
      refine ⟨hsame, fun hrefuses => ?_⟩
      rw [if_pos hok, tellSolution]
      cases htree : e.equation.tree.isolate name with
      | error cause => rfl
      | ok tree => simp [Except.toOption, Option.filter, hrefuses tree htree (hrefused tree htree)]

theorem Sound.hover (line column : Nat) : start.Sound read (s.hover uri line column).2 := by
  unfold Service.hover
  cases hfind : s.documents.find? uri with
  | none => exact h
  | some d =>
    dsimp only
    split
    · exact h
    · split
      · exact h
      · split
        · exact h
        · next e he =>
          split
          · exact h
          · split
            · next hname =>
              exact (h.describeParameter hlive hlabels hfind (mem_of_find?_eq_some he)
                (contains_iff_mem.1 hname)).1
            · exact h

end

end

/-! ## Events -/

/-- What an editor asks of the service. -/
inductive Event where
  /-- A document is opened or changed; it has this text now. -/
  | update (uri text : Bytes)
  | hover (uri : Bytes) (line column : Nat)
  | close (uri : Bytes)

/-- The service after an event. -/
def handle (s : Service) : Event → Service
  | .update uri text => (s.update uri text).2
  | .hover uri line column => (s.hover uri line column).2
  | .close uri => s.close uri

/-- The equations of a text that comes with an event fit into the store. -/
def Event.Fits (start : Service) : Event → Prop
  | .update uri text => ∀ entry ∈ (readEquations uri text start.compat).equations,
      Editor.Fits start.session.store start.names entry.equation.tree
  | .hover _ _ _ | .close _ => True

instance (start : Service) : (event : Event) → Decidable (event.Fits start)
  | .update uri text =>
    inferInstanceAs (Decidable (∀ entry ∈ (readEquations uri text start.compat).equations, _))
  | .hover _ _ _ | .close _ => inferInstanceAs (Decidable True)

theorem Sound.foldl {start s : Service} {read : Bytes → FileEquation → Prop}
    (h : start.Sound read s) (hlive : start.stopped = false)
    (hlabels : labelTable 0 start.session.store.programs = .ok start.session.store.labels)
    (events : List Event) (hfits : ∀ event ∈ events, event.Fits start)
    (hread : ∀ uri text, .update uri text ∈ events →
      ∀ f ∈ (readEquations uri text start.compat).equations, read uri f) :
    start.Sound read (events.foldl handle s) := by
  induction events generalizing s with
  | nil => exact h
  | cons event events ih =>
    obtain ⟨hevent, hevents⟩ := forall_mem_cons.1 hfits
    refine ih ?_ hevents fun uri text htext => hread uri text (mem_cons_of_mem _ htext)
    cases event with
    | update uri text => exact h.update hlive hlabels hevent (hread uri text mem_cons_self)
    | hover uri line column => exact h.hover hlive hlabels line column
    | close uri => exact h.close hlive

/-- The service neither loses slots nor gives one to two equations. After any events, a slot is
    taken that was free at the start if and only if it belongs to an equation of an open document,
    and to one only; the other slots are as they were. Equations without an error have a program,
    and those with one have no slots. When all documents are closed, as much memory is in use as at
    the start. -/
theorem documents_own_slots {session : Session} {names : NameTable} {compat : Bool}
    (hlabels : labelTable 0 session.store.programs = .ok session.store.labels)
    (hword : Store.inWord session.store.used = session.store.used) (events : List Event)
    (hfits : ∀ event ∈ events, event.Fits (new session names compat)) :
    let s := events.foldl handle (new session names compat)
    (heldBy s.documents).Nodup ∧
      (∀ ref, ref ∈ heldBy s.documents ↔ ∃ k : Nat, ref = .equation k ∧
        session.store.slot? k = none ∧ (s.session.store.slot? k).isSome) ∧
      (∀ k, (session.store.slot? k).isSome → s.session.store.slot? k = session.store.slot? k) ∧
      (∀ d ∈ s.documents, ∀ e ∈ d.2.equations,
        (e.failure = none → e.equation.program ≠ .none) ∧
        (e.failure ≠ none → e.equation.slots = [])) ∧
      (s.documents = [] → s.session.store.used = session.store.used) := by
  have hnew : Sound (new session names compat) (fun _ _ => True) (new session names compat) :=
    ⟨rfl, .start hword, .nil, nofun⟩
  have hsound := hnew.foldl rfl hlabels events hfits (by simp)
  generalize events.foldl handle (new session names compat) = s at hsound
  have hledger : session.store.Ledger (heldBy s.documents) s.session.store := hsound.ledger
  refine ⟨hledger.nodup, fun ref => ⟨fun hmem => ?_, ?_⟩,
    fun k hk => hledger.others k fun hmem => ?_, fun d hd e he => ?_, fun hnone => ?_⟩
  · obtain ⟨k, p, rfl, hfree, hp, -⟩ := hledger.taken ref hmem
    exact ⟨k, rfl, hfree, by rw [hp]; rfl⟩
  · rintro ⟨k, rfl, hfree, htaken⟩
    by_contra hmem
    rw [hledger.others k hmem, hfree] at htaken
    cases htaken
  · obtain ⟨j, p, hj, hfree, -⟩ := hledger.taken _ hmem
    obtain rfl : k = j := by simpa using hj
    rw [hfree] at hk
    cases hk
  · have hsound := (hsound.documents d hd).equations e he
    exact ⟨fun hok => (hsound.compiled hok).1, fun hfailed => (hsound.failed hfailed).1⟩
  · have hused := hledger.used
    rw [hnone] at hused
    exact hused.trans (by simp [heldBy, hword])

/-- A session with an empty program and memory for two more. -/
def roomForTwo : Session where
  store := { storeOf endBytes true 0 with options := { memoryLimit := 192 } }
  calls := { max := 8 }

/-- An equation is opened and solved, and opened again in another document. -/
def openedTwice : List Event :=
  [.update (utf8 "a") (utf8 "X=A"), .hover (utf8 "a") 0 0, .update (utf8 "b") (utf8 "A+1\nX=A")]

/-- All documents are closed in the end. -/
def closedAgain : List Event := openedTwice ++ [.close (utf8 "b"), .close (utf8 "a")]

/-- The equation of the first document has both slots, and those of the second one have none for
    lack of memory. When the documents are closed, the memory is free again. -/
theorem documents_own_slots_openedTwice :
    heldBy (openedTwice.foldl handle (new roomForTwo [] false)).documents
        = [.equation 1, .equation 0] ∧
      (openedTwice.foldl handle (new roomForTwo [] false)).documents.map
        (fun d => d.2.equations.map (·.failure.isSome)) = [[false], [true, true]] ∧
      ((openedTwice.foldl handle (new roomForTwo [] false)).session.store.slot? 1).isSome ∧
      (closedAgain.foldl handle (new roomForTwo [] false)).session.store.used
        = roomForTwo.store.used := by
  have hheld : heldBy (openedTwice.foldl handle (new roomForTwo [] false)).documents
      = [.equation 1, .equation 0] := by decide +kernel
  have hclosed : (closedAgain.foldl handle (new roomForTwo [] false)).documents.isEmpty = true := by
    decide +kernel
  obtain ⟨-, htaken, -⟩ := @documents_own_slots roomForTwo [] false rfl (by decide) openedTwice
    (by decide +kernel)
  obtain ⟨-, -, -, -, hused⟩ := @documents_own_slots roomForTwo [] false rfl (by decide) closedAgain
    (by decide +kernel)
  rw [hheld] at htaken
  obtain ⟨k, hk, -, hsome⟩ := (htaken (.equation 1)).1 mem_cons_self
  have hk := ProgramRef.equation.inj hk
  obtain rfl : k = 1 := by omega
  exact ⟨hheld, by decide +kernel, hsome, hused (isEmpty_iff.1 hclosed)⟩

end Service

end Editor

end Keystroke
