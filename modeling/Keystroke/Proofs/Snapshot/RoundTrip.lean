import Keystroke.Proofs.Compile.Correctness
import Keystroke.Proofs.Snapshot.Loading
import Keystroke.Proofs.Store.Slots

set_option autoImplicit false

/-! # Saving and restoring

A session that is restored from the snapshot of another has the programs of the other with every
target unknown, the label table that these programs give, the same variables, and equations of the
same names and trees with the programs that compiling them gives (`Session.restore_capture`). -/

namespace Keystroke

open Operation List Store Equation

variable {snap : Snapshot} {p : Program} {code : List Instr} {es : List Equation}
  {options : Options}
variable {s : Store} {lss : List (List Line)} {e : Equation} {names : NameTable} {t : Session}

/-! ## Variables -/

namespace Variables

/-- No name stands for two variables. -/
def Distinct (v : Variables) : Prop := (v.reals.map (·.1) ++ v.matrices.map (·.1)).Nodup

theorem foldl_store (reals done : Assoc Bytes Float) (h : (done ++ reals).map (·.1) |>.Nodup) :
    reals.foldl (fun (v : Variables) (name, x) => v.store name x) ⟨done, []⟩
      = ⟨done ++ reals, []⟩ := by
  induction reals generalizing done with
  | nil => simp
  | cons entry rest ih =>
    obtain ⟨name, x⟩ := entry
    have hnew : name ∉ done.map (·.1) := by
      rw [map_append, nodup_append] at h
      intro hmem
      exact h.2.2 name hmem name (by simp) rfl
    have hstep : store ⟨done, []⟩ name x = ⟨done ++ [(name, x)], []⟩ := by
      rw [store, Assoc.put_of_find?_eq_none (Assoc.find?_eq_none_iff.2 hnew)]
      rfl
    change foldl _ (store ⟨done, []⟩ name x) rest = _
    rw [hstep, ih _ (by simpa using h)]
    simp

theorem foldl_setMatrix {reals : Assoc Bytes Float} (matrices done : Assoc Bytes (List Float))
    (h : (reals.map (·.1) ++ (done ++ matrices).map (·.1)).Nodup) :
    matrices.foldl (fun (v : Variables) (name, elements) => v.setMatrix name elements) ⟨reals, done⟩
      = ⟨reals, done ++ matrices⟩ := by
  induction matrices generalizing done with
  | nil => simp
  | cons entry rest ih =>
    obtain ⟨name, elements⟩ := entry
    obtain ⟨-, hdone, hreals⟩ := nodup_append.1 h
    have hnew : name ∉ done.map (·.1) := by
      rw [map_append, nodup_append] at hdone
      intro hmem
      exact hdone.2.2 name hmem name (by simp) rfl
    have hother : name ∉ reals.map (·.1) := by
      intro hmem
      exact hreals name hmem name (by simp) rfl
    have hstep : setMatrix ⟨reals, done⟩ name elements = ⟨reals, done ++ [(name, elements)]⟩ := by
      rw [setMatrix, Assoc.put_of_find?_eq_none (Assoc.find?_eq_none_iff.2 hnew),
        Assoc.remove_of_not_mem hother]
    change foldl _ (setMatrix ⟨reals, done⟩ name elements) rest = _
    rw [hstep, ih _ (by simpa using h)]
    simp

theorem getD_savedElements (elements : List Float) :
    (savedElements elements).getD [] = elements := by
  unfold savedElements
  split
  · next h => simpa using h.symm
  · rfl

theorem restore_saved {v : Variables} (h : v.Distinct)
    (hreals : snap.reals = v.reals)
    (hmatrices : snap.matrices = v.matrices.map fun (name, elements) =>
      (name, savedElements elements)) :
    ({} : Variables).restore snap = v := by
  have hstored := foldl_store v.reals [] (by simpa using (nodup_append.1 h).1)
  have hset := @foldl_setMatrix v.reals v.matrices [] h
  simp only [restore, hreals, hmatrices, foldl_map, getD_savedElements]
  exact (congrArg (fun w : Variables => v.matrices.foldl (fun (v : Variables) (name, elements) =>
    v.setMatrix name elements) w) hstored).trans hset

end Variables

/-! ## Stores after notes of pending returns were taken back -/

namespace Store

namespace Notes

variable {t : Store}

theorem text (h : s.Notes t) (ref : ProgramRef) : t.text ref = s.text ref := by
  rcases h with rfl | ⟨ref', p, n, hp, rfl⟩
  · rfl
  by_cases href : ref = ref'
  · rw [href, text, text, program?_setProgram_self _ hp, hp]
  · rw [text, text, program?_setProgram_ne _ hp href]

theorem holds (h : s.Notes t) (hs : List.Forall₂ Program.Holds s.programs lss) :
    List.Forall₂ Program.Holds t.programs lss := by
  rcases h with rfl | ⟨ref, p, n, hp, rfl⟩
  · exact hs
  cases ref with
  | user i =>
    obtain ⟨pre, post, hps, rfl⟩ := exists_programs_split hp
    rw [hps] at hs
    obtain ⟨lpre, ls, lpost, rfl, hpre, hls, hpost⟩ := exists_lines_split hs
    rw [setProgram_of_split _ hps]
    exact rel_append hpre (.cons ⟨hls.text, hls.notEnd⟩ hpost)
  | equation i => exact hs
  | none | solver | integrator => cases hp

theorem same (h : s.Notes t) : t.labels = s.labels ∧ t.options = s.options := by
  rcases h with rfl | ⟨ref, p, n, hp, rfl⟩
  · exact ⟨rfl, rfl⟩
  · cases ref <;> exact ⟨rfl, rfl⟩

end Notes

namespace Renoted

variable {t : Store}

theorem text (h : s.Renoted t) (ref : ProgramRef) : t.text ref = s.text ref := by
  induction h with
  | refl => rfl
  | tail _ hnotes ih => rw [hnotes.text, ih]

theorem lines (h : s.Renoted t) (ref : ProgramRef) : t.lines ref = s.lines ref := by
  rw [Store.lines, Store.lines, h.text]

theorem holds (h : s.Renoted t) (hs : List.Forall₂ Program.Holds s.programs lss) :
    List.Forall₂ Program.Holds t.programs lss := by
  induction h with
  | refl => exact hs
  | tail _ hnotes ih => exact hnotes.holds ih

theorem same (h : s.Renoted t) : t.labels = s.labels ∧ t.options = s.options := by
  induction h with
  | refl => exact ⟨rfl, rfl⟩
  | tail _ hnotes ih => rwa [hnotes.same.1, hnotes.same.2]

end Renoted

end Store

/-! ## Equations -/

/-- Every command that the calls of an expression are compiled to can be that of a line, and the
    program is not too long for the numbers of its lines. -/
structure Expr.Compilable (names : NameTable) (e : Expr) : Prop where
  calls : ∀ c ∈ e.calls, ∀ command, names.command? c.1 c.2 = some command →
    command.code ≤ Command.maxCode ∧ command ≠ .endLine
  size : e.codeSize names < 2147483648

namespace Equation

/-- The name and the tree of the equation are those that its source gives. -/
def Read (e : Equation) : Prop :=
  ∃ f, parse e.compat e.source = .ok f ∧ f.name = e.name ∧ f.tree = e.tree

theorem read_of_parse {compat : Bool} {source : Bytes} (h : parse compat source = .ok e) :
    e.Read := by
  obtain ⟨t, -, rfl⟩ := exists_of_parse h
  exact ⟨_, h, rfl, rfl⟩

end Equation

namespace Expr

theorem Compilable.exists_code {e : Expr} (h : e.Compilable names) (hproper : e.Proper) :
    ∃ code, (e.program names).resolve = .ok code ∧ (∀ i ∈ code, i.Emittable) ∧
      (code.map Instr.size).sum < 2147483648 := by
  obtain ⟨code, lineOf, hresolve, -⟩ := e.resolve_program names
  have hsize := h.size
  rw [codeSize, hresolve] at hsize
  refine ⟨code, hresolve, ?_, hsize⟩
  refine meets_program (fun i hi => hi.emittable) hproper ?_ hresolve
    ((length_lt_of_size hsize).trans (by decide))
  intro c hc hname
  unfold callLine
  cases hcommand : names.command? c.1 c.2 with
  | none => exact Instr.emittable_call hname
  | some command =>
    obtain ⟨hcode, hend⟩ := h.calls c hc command hcommand
    exact Instr.emittable_plain hcode hend

/-- The lines of a program that was compiled from code. -/
def linesOf (code : List Instr) : List Instr := code.map Instr.readBack ++ [.plain .endLine]

theorem lines_of_writes {ref : ProgramRef} {ls : List Line}
    (hp : s.program? ref = some p) (hl : p.Holds ls) (hwrites : List.Forall₂ Line.Writes ls code) :
    s.lines ref = .ok (linesOf code) := by
  have hinstr : ls.map Line.instr = code.map Instr.readBack := by
    clear hl
    induction hwrites with
    | nil => rfl
    | cons hline _ ih => rw [map_cons, map_cons, hline.instr, ih]
  rw [lines_of_holds hp hl, map_append, hinstr]
  simp [linesOf]

/-- Compiling adds a slot with the lines of the code to a store, and changes nothing else that is
    there. -/
theorem compile_adds {e : Expr} (hs : s.Unlimited) (hlisted : s.Listed)
    (hresolve : (e.program names).resolve = .ok code) (hcode : ∀ i ∈ code, i.Emittable)
    (hsmall : (code.map Instr.size).sum < 2147483648) :
    ∃ (k : Nat) (s' : Store), e.compile names s = .ok (.equation k) s' ∧
      s'.lines (.equation k) = .ok (linesOf code) ∧ s'.Unlimited ∧ s'.programs = s.programs ∧
      s'.labels = s.labels ∧ ∀ j p, s.slot? j = some p → s'.slot? j = some p := by
  obtain ⟨k, ls, p, s', hrun, -, hp, hholds, hwrites, hoptions⟩ :=
    compile_eq_ok_of_emittable hs hresolve hcode (room_of_small hsmall)
  refine ⟨k, s', hrun, lines_of_writes hp hholds hwrites, hs.of_options hoptions, ?_⟩
  have hslots := compile_slots names e s
  rw [hrun] at hslots
  cases hslots with
  | ok hslots =>
    obtain ⟨k', hk, hfree, ht⟩ := hslots
    refine ⟨ht.programs, ?_, ?_⟩
    · rcases ht.labels with hsame | hanew
      · exact hsame
      · obtain ⟨lss, hlss, hlabels⟩ := hlisted.lines
        rw [hlabels]
        exact Except.ok.inj (hanew.symm.trans (labelTable_of_holds hlss 0))
    · intro j q hq
      rw [ht.others j (by rintro rfl; simp [hfree] at hq), hq]

end Expr

namespace Equation

/-- The second equation is the first as it is restored: with the same name and tree, and with the
    program that compiling it gives. -/
structure RestoredAs (names : NameTable) (s : Store) (e e' : Equation) : Prop where
  name : e'.name = e.name
  tree : e'.tree = e.tree
  lines : ∃ code, (e.tree.program names).resolve = .ok code ∧
    s.lines e'.program = .ok (Expr.linesOf code)

theorem fingerprint_eq {e' : Equation} (hname : e'.name = e.name) (htree : e'.tree = e.tree) :
    e'.fingerprint = e.fingerprint := by
  rw [fingerprint, fingerprint, form, form, hname, htree]

theorem Read.proper (h : e.Read) : e.tree.Proper := by
  obtain ⟨f, hparse, -, htree⟩ := h
  rw [← htree]
  obtain ⟨t, ht, rfl⟩ := exists_of_parse hparse
  have hproper := Expr.proper_of_parse ht
  cases t <;> exact hproper

theorem restore_saved {s' : Store} {k : Nat} (h : e.Read)
    (hcompile : e.tree.compile names s = .ok (.equation k) s') :
    ∃ e', e.saved.restore names s = .ok e' s' ∧ e'.name = e.name ∧ e'.tree = e.tree ∧
      e'.program = .equation k := by
  obtain ⟨f, hparse, hname, htree⟩ := h
  have hprogram : f.program = .none := by
    obtain ⟨t, -, rfl⟩ := exists_of_parse hparse
    rfl
  refine ⟨{ f with names := names, program := .equation k }, ?_, hname, htree, rfl⟩
  have hread : (parse e.saved.compat e.saved.source).mapError Error.parse = .ok f := by
    rw [show parse e.saved.compat e.saved.source = .ok f from hparse]
    rfl
  have hfingerprint : ¬ f.fingerprint ≠ e.saved.fingerprint :=
    not_not.2 (fingerprint_eq hname htree)
  rw [SavedEquation.restore, hread, bind_ok (Edit.ofExcept_ok f), if_neg hfingerprint]
  change f.compile names s = _
  rw [compile, if_neg (not_not.2 hprogram), htree, bind_ok hcompile]
  rfl

end Equation

theorem restoreEquations_eq_ok (hs : s.Unlimited) (hlisted : s.Listed)
    (hread : ∀ e ∈ es, e.Read) (hcompilable : ∀ e ∈ es, e.tree.Compilable names)
    (done : List Equation) :
    ∃ es' s', restoreEquations names (es.map saved) done s = .ok (done ++ es') s' ∧
      List.Forall₂ (Equation.RestoredAs names s') es es' ∧ s'.programs = s.programs ∧
      s'.labels = s.labels ∧ ∀ j p, s.slot? j = some p → s'.slot? j = some p := by
  induction es generalizing s done with
  | nil => exact ⟨[], s, by simp [restoreEquations], .nil, rfl, rfl, fun _ _ h => h⟩
  | cons e es ih =>
    obtain ⟨he, hrest⟩ := forall_mem_cons.1 hread
    obtain ⟨hc, hcrest⟩ := forall_mem_cons.1 hcompilable
    obtain ⟨code, hresolve, hcode, hsmall⟩ := hc.exists_code he.proper
    obtain ⟨k, s1, hrun, hlines, hs1, hprograms1, hlabels1, hslots1⟩ :=
      Expr.compile_adds hs hlisted hresolve hcode hsmall
    obtain ⟨e', hrestore, hname, htree, hprogram⟩ := restore_saved he hrun
    obtain ⟨es', s', hmore, hes', hprograms, hlabels, hslots⟩ :=
      ih hs1 (hlisted.of_same hprograms1 hlabels1) hrest hcrest (done ++ [e'])
    refine ⟨e' :: es', s', ?_, .cons ⟨hname, htree, code, hresolve, ?_⟩ hes',
      hprograms.trans hprograms1, hlabels.trans hlabels1, fun j p hp => hslots j p (hslots1 j p hp)⟩
    · rw [append_assoc] at hmore
      simp only [map_cons, restoreEquations, hrestore]
      exact hmore
    · -- the slot is kept while the other equations are compiled
      rw [hprogram, ← hlines]
      cases hp : s1.slot? k with
      | none =>
        rw [lines, text, show s1.program? (.equation k) = none from hp] at hlines
        cases hlines
      | some p =>
        rw [lines, lines, text, text, show s1.program? (.equation k) = some p from hp,
          show s'.program? (.equation k) = some p from hslots k p hp]

/-! ## Whole sessions -/

theorem mapM_eq_ok {α β ε : Type} {f : α → Except ε β} {g : α → β} {xs : List α}
    (h : ∀ x ∈ xs, f x = .ok (g x)) : xs.mapM f = .ok (xs.map g) := by
  induction xs with
  | nil => rfl
  | cons x xs ih =>
    obtain ⟨hx, hrest⟩ := forall_mem_cons.1 h
    rw [mapM_cons, hx, ih hrest]
    rfl

namespace Session

theorem mapM_canonicalText (h : List.Forall₂ Program.Recorded s.programs lss) :
    (range s.programs.length).mapM (fun (i : Nat) => s.canonicalText (.user i))
      = .ok (lss.map fun ls => codeOf (clearAll ls)) := by
  obtain ⟨hlength, hget⟩ := forall₂_iff_get.1 h
  have hall : ∀ i ∈ range s.programs.length, s.canonicalText (.user i)
      = .ok (codeOf (clearAll (lss.getD i []))) := by
    intro i hi
    have hlt : i < s.programs.length := mem_range.1 hi
    have hp : s.program? (.user i) = some (s.programs.get ⟨i, hlt⟩) :=
      program?_user_eq_some_iff.2 ⟨by omega, by simp⟩
    rw [canonicalText_of_recorded hp (hget i hlt (hlength ▸ hlt)),
      getD_eq_getElem _ _ (hlength ▸ hlt)]
    rfl
  rw [mapM_eq_ok hall]
  congr 1
  refine ext_getElem (by simp [hlength]) ?_
  intro i h1 h2
  have hlt : i < lss.length := by simpa using h2
  simp [getElem?_eq_getElem hlt]

/-- What a new session has: one empty program, or none when there is no memory for it. -/
structure IsNew (options : Options) (t : Session) : Prop where
  books : t.store.Exact options.normalize
  room : ∀ p ∈ t.store.programs, p.buffer.capacity ≤ options.normalize.roomFor p.buffer.text.length
  listed : t.store.Listed
  loading : t.store.loading = 0
  equations : t.store.equations = []
  calls : t.calls = .new t.store.options.maxDepth
  vars : t.vars = {}
  programs : (∃ p, t.store.programs = [p] ∧ Store.Empty false p) ∨
    t.store.programs = [] ∧ 0 < options.memoryLimit

theorem isNew_of_new (hnew : new options = .ok t) : t.IsNew options := by
  cases hstore : Store.new options with
  | error cause => simp [new, hstore, bind, Except.bind] at hnew
  | ok store =>
    simp only [new, hstore, bind, Except.bind, pure, Except.pure, Except.ok.injEq] at hnew
    subst hnew
    obtain ⟨-, hequations, hloading, -, hprograms, hlisted⟩ := Store.new_cases hstore
    obtain ⟨hbooks, hroom⟩ := Store.exact_new hstore
    refine ⟨hbooks, fun p hp => (hroom p hp).trans ?_, hlisted, hloading, hequations, rfl, rfl,
      hprograms⟩
    obtain ⟨ls, hls⟩ := hbooks.legible.programs p hp
    have htwo := hls.length
    rw [Options.roomFor]
    omega

theorem unlimited_of_new (hnew : new options = .ok t)
    (hlimit : options.memoryLimit ≤ 0) : t.store.Unlimited := by
  have ht := isNew_of_new hnew
  refine Valid.unlimited ⟨⟨options, t, hnew, ht.books.options⟩, ht.calls ▸ .new _⟩ ?_
  rw [ht.books.options]
  exact hlimit

theorem isEmpty_of_empty (hprograms : t.store.programs = [p])
    (hp : Store.Empty false p) : t.isEmpty = true := by
  have hprogram : t.store.program? (.user 0) = some p :=
    program?_user_eq_some_iff.2 ⟨by omega, by simp [hprograms]⟩
  rw [isEmpty, lines_of_holds hprogram (Program.holds_nil hp.text), hprograms]
  rfl

end Session

theorem Snapshot.restore_eq_ok
    (hnew : Session.new options = .ok t) (hlimit : options.memoryLimit ≤ 0)
    (hversion : snap.version = snapshotVersion) (hne : lss ≠ [])
    (hprograms : snap.programs = lss.map codeOf) (hfresh : ∀ ls ∈ lss, ∀ l ∈ ls, l.Fresh)
    (hsmall : ∀ ls ∈ lss, 2 * (codeOf ls).length ≤ maxCapacity)
    (hequations : snap.equations = es.map saved) (hread : ∀ e ∈ es, e.Read)
    (hcompilable : ∀ e ∈ es, e.tree.Compilable names) :
    ∃ es' t', snap.restore names t = .ok es' t' ∧
      List.Forall₂ Program.Holds t'.store.programs lss ∧ t'.store.labels = tableOf 0 lss ∧
      t'.vars = ({} : Variables).restore snap ∧
      List.Forall₂ (Equation.RestoredAs names t'.store) es es' := by
  have ht := Session.isNew_of_new hnew
  have hunlimited := Session.unlimited_of_new hnew hlimit
  have hcalls : t.calls.WellFormed := ht.calls ▸ (CallStack.Arises.new _).wellFormed
  obtain ⟨p, hone, hp⟩ := ht.programs.resolve_right fun h => absurd h.2 (Int.not_lt.2 hlimit)
  -- the programs
  obtain ⟨store1, hload, hunlimited1, -, hholds1, hlabels1⟩ :=
    bulkLoad_eq_ok (ht.books.options ▸ ht.books.toBooks) hunlimited (ht.books.options ▸ ht.room)
      ht.loading ht.equations hone hp hne hfresh hsmall
  obtain ⟨t1, hedit1, hfollows1⟩ := Session.edit_eq_ok hcalls hload
  obtain ⟨calls, store2, hclear, hempty, hreleased⟩ := Session.clearReturns_eq_ok hfollows1.calls
  have hstore2 : store1.Renoted store2 := hfollows1.store.trans hreleased
  have hholds2 := hstore2.holds hholds1
  have hlabels2 : store2.labels = tableOf 0 lss := hstore2.same.1.trans hlabels1
  -- the equations
  obtain ⟨es', store3, hrestore, hes', hprograms3, hlabels3, -⟩ := restoreEquations_eq_ok
    (hunlimited1.of_options hstore2.same.2) ⟨lss, hholds2, hlabels2⟩ hread hcompilable []
  obtain ⟨t3, hedit3, hfollows3⟩ := @Session.edit_eq_ok _ { t1 with
    calls := calls, store := store2, running := false, locals := [], funcs := []
    vars := t1.vars.restore snap } _ _ _ hempty.wellFormed hrestore
  have hstore3 := hfollows3.store
  refine ⟨es', t3, ?_, hstore3.holds (by rw [hprograms3]; exact hholds2), ?_, ?_, ?_⟩
  · have hcheck : Machine.ofExcept snap.checkVersion t = .ok () t := by
      rw [checkVersion, if_pos hversion]
      rfl
    rw [restore, bind_ok hcheck, get_bind, Session.isEmpty_of_empty hone hp, hprograms, hequations]
    change (Session.edit (bulkLoad (lss.map codeOf)) >>= _) t = _
    rw [bind_ok hedit1, bind_ok hclear, modify_bind]
    exact hedit3
  · rw [hstore3.same.1, hlabels3, hlabels2]
  · rw [hfollows3.vars]
    simp only [hfollows1.vars, ht.vars]
  · exact hes'.imp fun e e' he => ⟨he.name, he.tree, by
      obtain ⟨code, hcode, hlines⟩ := he.lines
      exact ⟨code, hcode, by rw [hstore3.lines, hlines]⟩⟩

theorem tableOf_clearAll (n : Nat) (lss : List (List Line)) :
    tableOf n (lss.map clearAll) = tableOf n lss := by
  induction lss generalizing n with
  | nil => rfl
  | cons ls lss ih => rw [map_cons, tableOf, tableOf, labelsOf_program_clearAll, ih]

namespace Session

/-- A session is saved, and restoring the snapshot into a new session without a memory limit gives
    its programs with every target unknown, the label table that a rebuild of its own would give,
    its variables, and its equations with the programs that compiling them anew gives. -/
theorem restore_capture {s : Session} (hne : s.store.programs ≠ [])
    (hprograms : ∀ p ∈ s.store.programs, ∃ ls, p.Recorded ls)
    (hsize : ∀ p ∈ s.store.programs, 2 * p.buffer.text.length ≤ Store.maxCapacity)
    (hvars : s.vars.Distinct) {equations : List Equation} (hread : ∀ e ∈ equations, e.Read)
    {names : NameTable} (hcompilable : ∀ e ∈ equations, e.tree.Compilable names)
    {options : Options} {t : Session} (hnew : new options = .ok t)
    (hlimit : options.memoryLimit ≤ 0) :
    ∃ snap es t', s.capture equations = .ok snap ∧ snap.restore names t = .ok es t' ∧
      t'.store.programs.length = s.store.programs.length ∧
      (∀ k : Nat, k < s.store.programs.length → ∃ lines, s.store.lines (.user k) = .ok lines ∧
        t'.store.lines (.user k) = .ok (lines.map (·.withTarget targetUnknown))) ∧
      (∃ rebuilt, Store.rebuildLabels s.store = .ok () rebuilt ∧
        t'.store.labels = rebuilt.labels) ∧
      t'.vars = s.vars ∧
      List.Forall₂ (fun e e' => e'.name = e.name ∧ e'.tree = e.tree ∧
        e'.fingerprint = e.fingerprint ∧
        ∃ ref r lines, e.tree.compile names t.store = .ok ref r ∧ r.lines ref = .ok lines ∧
          t'.store.lines e'.program = .ok lines) equations es := by
  obtain ⟨lss, hlss⟩ := exists_forall₂ hprograms
  have hholds : List.Forall₂ Program.Holds s.store.programs lss := hlss.imp fun _ _ h => h.1
  obtain ⟨hlength, hget⟩ := forall₂_iff_get.1 hlss
  obtain ⟨snap, hsnap⟩ : ∃ snap : Snapshot, snap = {
      programs := lss.map fun ls => codeOf (clearAll ls)
      equations := equations.map saved
      reals := s.vars.reals
      matrices := s.vars.matrices.map fun (name, elements) => (name, savedElements elements) } :=
    ⟨_, rfl⟩
  have hcapture : s.capture equations = .ok snap := by
    rw [capture, mapM_canonicalText hlss, hsnap]
    rfl
  have hsaved : snap.programs = (lss.map clearAll).map codeOf := by
    rw [hsnap, map_map]
    rfl
  have hnonempty : lss.map clearAll ≠ [] := by
    simpa using ne_nil_of_length_pos (hlength ▸ length_pos_iff.2 hne)
  have hfresh : ∀ ms ∈ lss.map clearAll, ∀ l ∈ ms, l.Fresh := by
    intro ms hms l hl
    obtain ⟨ls, hls, rfl⟩ := mem_map.1 hms
    obtain ⟨m, hm, rfl⟩ := mem_map.1 hl
    obtain ⟨p, -, hp⟩ := exists_left_of_mem hlss hls
    exact hp.2 m hm
  have hsmall : ∀ ms ∈ lss.map clearAll, 2 * (codeOf ms).length ≤ maxCapacity := by
    intro ms hms
    obtain ⟨ls, hls, rfl⟩ := mem_map.1 hms
    obtain ⟨p, hmem, hp⟩ := exists_left_of_mem hlss hls
    have hbytes := hsize p hmem
    rwa [hp.1.length, ← length_textOf_clearAll, ← length_codeOf] at hbytes
  obtain ⟨es, t', hrestore, hholds', hlabels', hvars', hes⟩ := Snapshot.restore_eq_ok hnew hlimit
    (by rw [hsnap]) hnonempty hsaved hfresh hsmall (by rw [hsnap]) hread hcompilable
  obtain ⟨hlength', hget'⟩ := forall₂_iff_get.1 hholds'
  rw [length_map, ← hlength] at hlength'
  refine ⟨snap, es, t', hcapture, hrestore, hlength', ?_, ?_, ?_, ?_⟩
  · intro k hk
    have hk₁ : k < lss.length := hlength ▸ hk
    have hk' : k < t'.store.programs.length := hlength' ▸ hk
    have hprogram : s.store.program? (.user k) = some (s.store.programs.get ⟨k, hk⟩) :=
      program?_user_eq_some_iff.2 ⟨by omega, by simp⟩
    have hprogram' : t'.store.program? (.user k) = some (t'.store.programs.get ⟨k, hk'⟩) :=
      program?_user_eq_some_iff.2 ⟨by omega, by simp⟩
    refine ⟨_, lines_of_holds hprogram (hget k hk hk₁).1, ?_⟩
    rw [lines_of_holds hprogram' (hget' k hk' (by simpa using hk₁)), ← map_instr_clearAll]
    simp
  · refine ⟨{ s.store with labels := tableOf 0 lss }, ?_, hlabels'.trans (tableOf_clearAll 0 lss)⟩
    rw [rebuildLabels, get_bind, labelTable_of_holds hholds]
    rfl
  · rw [hvars', Variables.restore_saved hvars (by rw [hsnap]) (by rw [hsnap])]
  · have hunlimited := unlimited_of_new hnew hlimit
    have hlisted := (isNew_of_new hnew).listed
    have hboth := (forall₂_and_left _ _).2
      ⟨fun e he => And.intro (hread e he) (hcompilable e he), hes⟩
    refine hboth.imp ?_
    rintro e e' ⟨⟨he, hc⟩, hname, htree, code, hresolve, hlines⟩
    obtain ⟨code', hresolve', hcode, hsize'⟩ := hc.exists_code he.proper
    obtain rfl : code' = code := Except.ok.inj (hresolve'.symm.trans hresolve)
    obtain ⟨k, r, hrun, hlinesNew, -⟩ := Expr.compile_adds hunlimited hlisted hresolve hcode hsize'
    exact ⟨hname, htree, fingerprint_eq hname htree, .equation k, r, _, hrun, hlinesNew, hlines⟩

/-- A session with the lines GTO 5 and LBL 5, the first with the target that was looked up, a
    variable and a matrix. -/
def jumping : Session where
  store := {
    options := {}
    programs := [{ buffer := ⟨[0x8F, 1, 0, 0, 0, 7, 0x85, 0x5C, 1, 0x85] ++ endBytes, [], 52⟩ }] }
  calls := { max := 0 }
  vars := { reals := [(utf8 "A", 2)], matrices := [(utf8 "M", [1, 2])] }

theorem recorded_jumping : ∀ p ∈ jumping.store.programs, ∃ ls, p.Recorded ls := by
  intro p hp
  obtain rfl := mem_singleton.1 hp
  refine ⟨[⟨[0x8F, 1, 0, 0, 0, 7, 0x85], by decide⟩, ⟨[0x5C, 1, 0x85], by decide⟩],
    ⟨by decide, by decide⟩, ?_⟩
  intro l hl
  rcases mem_pair.1 hl with rfl | rfl
  · exact ⟨.withNum .gto 5, ⟨⟨_, rfl⟩, by decide, by decide, by decide, by decide⟩, by decide⟩
  · exact ⟨.withNum .lbl 5, ⟨⟨_, rfl⟩, by decide, by decide, by decide, by decide⟩, by decide⟩

/-- The jump of the restored program has no target, and the equation its name. -/
theorem restore_capture_jump :
    ∃ e t snap es t', Equation.parse false (utf8 "P:IP(A)=B") = .ok e ∧ new {} = .ok t ∧
      jumping.capture [e] = .ok snap ∧ snap.restore .standard t = .ok es t' ∧
      jumping.store.lines (.user 0)
        = .ok [(Instr.withNum .gto 5).withTarget 7, .withNum .lbl 5, .plain .endLine] ∧
      t'.store.lines (.user 0) = .ok [.withNum .gto 5, .withNum .lbl 5, .plain .endLine] ∧
      t'.vars = jumping.vars ∧ es.map (·.name) = [utf8 "P"] := by
  obtain ⟨e, he, hname, hcompilable⟩ : ∃ e, parse false (utf8 "P:IP(A)=B") = .ok e ∧
      e.name = utf8 "P" ∧ e.tree.Compilable .standard := by
    refine ⟨_, rfl, rfl, ?_, by decide +kernel⟩
    intro c hc command hcommand
    obtain rfl := mem_singleton.1 hc
    cases hcommand
    decide
  obtain ⟨t, ht⟩ : ∃ t, new {} = .ok t := ⟨_, rfl⟩
  have hdistinct : jumping.vars.Distinct := by
    unfold Variables.Distinct
    decide
  have hlines : jumping.store.lines (.user 0)
      = .ok [(Instr.withNum .gto 5).withTarget 7, .withNum .lbl 5, .plain .endLine] := by rfl
  obtain ⟨snap, es, t', hcapture, hrestore, -, hsame, -, hvars, hes⟩ := restore_capture
    (by decide) recorded_jumping (by decide) hdistinct
    (forall_mem_singleton.2 (read_of_parse he))
    (forall_mem_singleton.2 hcompilable) ht (by decide)
  obtain ⟨lines, hlines', hcleared⟩ := hsame 0 (by decide)
  obtain rfl : _ = lines := Except.ok.inj (hlines.symm.trans hlines')
  obtain ⟨e', rfl, hname'⟩ : ∃ e', es = [e'] ∧ e'.name = e.name := by
    cases hes with
    | cons h hrest =>
      cases hrest
      exact ⟨_, rfl, h.1⟩
  exact ⟨e, t, snap, _, t', he, ht, hcapture, hrestore, hlines, hcleared, hvars, by
    simp [hname', hname]⟩

/-- Why a new session with one equation is not restored from its own snapshot. -/
def refusal (source : Bytes) (names : NameTable) : Option Error :=
  match new {}, parse false source with
  | .ok t, .ok e =>
    match t.capture [e] with
    | .ok snap =>
      match snap.restore names t with
      | .ok _ _ => none
      | .error cause _ => some cause
    | .error _ => none
  | _, _ => none

/-- A call that the name table gives the command END cannot be compiled, so a session with it is
    saved but not restored. -/
theorem restore_fails :
    ∃ t e snap cause t', new {} = .ok t ∧ Equation.parse false (utf8 "F(1)") = .ok e ∧
      t.capture [e] = .ok snap ∧
      snap.restore [(utf8 "F", ⟨.endLine, 1⟩)] t = .error cause t' ∧
      cause.causes = [.restrictedOperation] := by
  have h : (refusal (utf8 "F(1)") [(utf8 "F", ⟨.endLine, 1⟩)]).map (·.causes)
      = some [.restrictedOperation] := by decide +kernel
  obtain ⟨cause, hcause, hcauses⟩ := Option.map_eq_some_iff.1 h
  unfold refusal at hcause
  split at hcause
  · next t e ht he =>
    split at hcause
    · next snap hsnap =>
      split at hcause
      · cases hcause
      · next t' hrestore =>
        cases hcause
        exact ⟨t, e, snap, _, t', ht, he, hsnap, hrestore, hcauses⟩
    · cases hcause
  · cases hcause

end Session

end Keystroke
