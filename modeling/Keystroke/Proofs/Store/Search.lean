import Keystroke.Proofs.Store.Text

set_option autoImplicit false

/-! # The search for local labels

The search starts behind a jump, goes to the END, and from the top of the program back to where it
started (`findLocal_textOf`): it finds the first label that answers in this order. Targets of jumps
play no part in it. Started anywhere in any text it comes to an end (`findLocal_ok`), since every
step goes forward and the way back to the top is taken once. -/

namespace Keystroke

open List

variable {text : Bytes} {start : Nat}

/-! ## Labels -/

theorem Header.cached_of_lbl {h : Header} (hc : h.command = .lbl) : h.cached = false := by
  have hnone : ∀ kind, hasJumpCache .lbl kind = false := fun kind => by cases kind <;> rfl
  rw [Header.cached, hc, hnone]

namespace Line

theorem exists_labelOperand {l : Line} (hc : l.header.command = .lbl) :
    ∃ used, operandSize l.header.kind 2 (l.bytes.drop 2) = .ok used ∧
      2 + used ≤ l.bytes.length := by
  obtain ⟨h, used, hr, -, hu, hn, -⟩ := lineSize_eq_ok_iff.1 l.exact
  obtain rfl : h = l.header := Option.some.inj (hr.symm.trans l.read?_bytes)
  have hstart : l.header.operandStart = 2 := by
    simp [Header.operandStart, Header.cached_of_lbl hc, Header.size]
  have hle := l.header.le_sizeWith used l.bytes
  rw [hstart] at hu hle
  exact ⟨used, hu, by omega⟩

/-- Whether the line is the local label that `arg` asks for. -/
def answers (strict : Bool) (arg : Operand) (l : Line) : Bool :=
  (isLocalLabel strict arg l.header l.bytes).toOption.getD false

theorem isLocalLabel_append (strict : Bool) (arg : Operand) (l : Line) (rest : Bytes) :
    isLocalLabel strict arg l.header (l.bytes ++ rest) = .ok (l.answers strict arg) := by
  by_cases hc : l.header.command = .lbl
  · obtain ⟨used, hu, hle⟩ := exists_labelOperand hc
    have hbyte : used = 1 → ∃ b, l.bytes[2]? = some b ∧ (l.bytes ++ rest)[2]? = some b := by
      rintro rfl
      refine ⟨l.bytes.get ⟨2, by omega⟩, ?_, ?_⟩
      · simp
      · rw [getElem?_append_left (by omega)]
        simp
    cases hk : l.header.kind
    case num =>
      rw [hk] at hu
      simp only [operandSize] at hu
      split at hu
      · next v n hd =>
        have hd' := Varint.decode_append rest hd
        rw [← drop_append_of_le_length (by omega)] at hd'
        simp only [answers, isLocalLabel, hc, hk, if_true, hd, hd']
        split <;> rfl
      · exact absurd hu (by simp)
    case register | letter =>
      obtain ⟨b, hb, hb'⟩ := hbyte (by
        rw [hk] at hu
        simpa [operandSize] using hu.symm)
      simp only [answers, isLocalLabel, hc, hk, if_true, hb, hb']
      cases arg.kind <;> rfl
    all_goals simp only [answers, isLocalLabel, hc, hk, if_true]; rfl
  · simp only [answers, isLocalLabel, if_neg hc]
    rfl

@[simp]
theorem answers_withTarget (strict : Bool) (arg : Operand) (l : Line) (t : Int32) :
    (l.withTarget t).answers strict arg = l.answers strict arg := by
  cases hc : l.header.cached with
  | false => rw [withTarget_of_not_cached t hc]
  | true =>
    have hne : l.header.command ≠ .lbl := fun hl => by
      simp [Header.cached_of_lbl hl] at hc
    simp only [answers, isLocalLabel, header_withTarget, if_neg hne]

end Line

/-- The offset of the first line that answers, the lines starting at an offset. -/
def labelAt? (strict : Bool) (arg : Operand) : Nat → List Line → Option Nat
  | _, [] => none
  | pc, l :: ls => if l.answers strict arg then some pc else labelAt? strict arg (pc + l.size) ls

@[simp]
theorem labelAt?_clearAll (strict : Bool) (arg : Operand) (pc : Nat) (ls : List Line) :
    labelAt? strict arg pc (clearAll ls) = labelAt? strict arg pc ls := by
  induction ls generalizing pc with
  | nil => rfl
  | cons l ls ih => simp [labelAt?, ih]

/-- The target that a label stands for. -/
def labelTarget : Option Nat → Int32
  | some pc => .ofNat pc
  | none => targetNone

/-! ## The search in a program -/

section

variable (strict : Bool) (arg : Operand)

/-- One step of the search: the line at the place of the search answers, or the search goes on
    behind it. -/
theorem searchLocal_step (start count : Nat) (wrapped : Bool) (done : List Line) (l : Line)
    (todo : List Line) (hw : wrapped = true → (textOf done).length < start)
    (hend : 2 ≤ (textOf todo).length) :
    searchLocal strict arg (textOf (done ++ l :: todo)) start (count + 1) (textOf done).length
        wrapped
      = if l.answers strict arg then .ok (.ofNat (textOf done).length)
        else searchLocal strict arg (textOf (done ++ l :: todo)) start count
          (textOf (done ++ [l])).length wrapped := by
  have hgo : (wrapped && decide (start ≤ (textOf done).length)) = false := by
    cases wrapped with
    | false => rfl
    | true => simpa using hw rfl
  have hmid : ¬ (textOf (done ++ l :: todo)).length ≤ (textOf done).length + endBytes.length := by
    have := l.two_le_size
    simp only [Line.size] at this
    simp only [textOf_append, textOf_cons, length_append, endBytes, length_cons, length_nil]
    omega
  have hdrop : (textOf (done ++ l :: todo)).drop (textOf done).length = l.bytes ++ textOf todo :=
    drop_textOf done (l :: todo)
  have hnext : (textOf (done ++ [l])).length = (textOf done).length + l.size := by
    simp [Line.size]
  rw [searchLocal]
  simp only [hgo, hmid, decide_false, Bool.false_eq_true, if_false, Bool.false_and, Bool.or_false,
    hdrop, Line.read?_append, Line.isLocalLabel_append, Line.lineSize_append, hnext]
  cases l.answers strict arg <;> rfl

theorem searchLocal_wrapped (start count : Nat) (done todo back : List Line)
    (hstart : start = (textOf (done ++ todo)).length) (hend : 2 ≤ (textOf back).length)
    (hcount : todo.length < count) :
    searchLocal strict arg (textOf (done ++ todo ++ back)) start count (textOf done).length true
      = .ok (labelTarget (labelAt? strict arg (textOf done).length todo)) := by
  induction todo generalizing done count with
  | nil =>
    obtain ⟨count, rfl⟩ := Nat.exists_eq_succ_of_ne_zero (Nat.pos_iff_ne_zero.1 hcount)
    rw [searchLocal]
    simp [hstart, labelAt?, labelTarget]
  | cons l todo ih =>
    obtain ⟨count, rfl⟩ := Nat.exists_eq_succ_of_ne_zero (by omega : count ≠ 0)
    have hlt : (textOf done).length < start := by
      have := l.two_le_size
      simp only [Line.size] at this
      rw [hstart]
      simp only [textOf_append, textOf_cons, length_append]
      omega
    rw [append_assoc, cons_append, searchLocal_step strict arg start count true done l
      (todo ++ back) (fun _ => hlt) (by rw [textOf_append, length_append]; omega), labelAt?]
    split
    · rfl
    · have hnext := ih count (done ++ [l]) (by simpa using hstart) (by simpa using hcount)
      simp only [append_assoc, cons_append, nil_append] at hnext
      rw [hnext]
      simp [Line.size]

theorem searchLocal_wrap {search : Nat} (count : Nat) {wrapped : Bool}
    (hw : wrapped = true → search < start) (hend : text.length ≤ search + endBytes.length)
    (hstart : 0 < start) :
    searchLocal strict arg text start (count + 1) search wrapped
      = searchLocal strict arg text start (count + 1) 0 true := by
  have hne : start ≠ 0 := by omega
  have hgo : (wrapped && decide (start ≤ search)) = false := by
    cases wrapped with
    | false => rfl
    | true => simpa using hw rfl
  rw [searchLocal, searchLocal]
  simp [hgo, hend, hne]

theorem searchLocal_forward (count : Nat) (front done todo : List Line)
    (hcount : todo.length + front.length + 1 < count) :
    searchLocal strict arg (textOf (front ++ done ++ todo ++ [Line.endLine]))
        (textOf front).length count (textOf (front ++ done)).length false
      = .ok (labelTarget ((labelAt? strict arg (textOf (front ++ done)).length todo).or
          (labelAt? strict arg 0 front))) := by
  induction todo generalizing done count with
  | nil =>
    obtain ⟨count, rfl⟩ := Nat.exists_eq_succ_of_ne_zero (by omega : count ≠ 0)
    simp only [append_nil, labelAt?, Option.none_or]
    have hlen : (textOf (front ++ done ++ [Line.endLine])).length
        = (textOf (front ++ done)).length + endBytes.length := by
      rw [textOf_append, length_append]
      rfl
    cases front with
    | nil =>
      rw [searchLocal]
      simp [labelAt?, labelTarget]
    | cons l front =>
      have hpos : 0 < (textOf (l :: front)).length := by
        have := length_le_length_textOf (l :: front)
        simp only [length_cons] at this
        omega
      rw [searchLocal_wrap strict arg count (fun h => absurd h (by simp)) (Nat.le_of_eq hlen) hpos,
        append_assoc]
      exact searchLocal_wrapped strict arg _ (count + 1) [] (l :: front) (done ++ [Line.endLine])
        (by simp) (by simp [endBytes]) (by simp at hcount ⊢; omega)
  | cons l todo ih =>
    obtain ⟨count, rfl⟩ := Nat.exists_eq_succ_of_ne_zero (by omega : count ≠ 0)
    rw [append_assoc (front ++ done), cons_append,
      searchLocal_step strict arg _ count false (front ++ done) l (todo ++ [Line.endLine])
        (fun h => absurd h (by simp)) (by simp [endBytes]), labelAt?]
    split
    · rfl
    · have hnext := ih count (done ++ [l]) (by simp at hcount; omega)
      simp only [append_assoc, cons_append, nil_append] at hnext
      simp only [append_assoc]
      rw [hnext]
      simp [Line.size, Nat.add_assoc]

/-- The search finds the first label that answers, from where it starts to the END and from the top
    back to there. -/
theorem findLocal_textOf (front back : List Line) :
    findLocal strict arg (textOf (front ++ back ++ [Line.endLine])) (textOf front).length
      = .ok (labelTarget ((labelAt? strict arg (textOf front).length back).or
          (labelAt? strict arg 0 front))) := by
  have hfront := length_le_length_textOf front
  have hback := length_le_length_textOf back
  have h := searchLocal_forward strict arg
    (2 * (textOf (front ++ back ++ [Line.endLine])).length + 4) front [] back
    (by simp only [textOf_append, length_append]; omega)
  simpa [findLocal] using h

/-! ## The search in any bytes -/

theorem isLocalLabel_ok (h : Header) {rest : Bytes} (hlen : 3 ≤ rest.length) :
    ∃ b, isLocalLabel strict arg h rest = .ok b := by
  obtain ⟨b, hb⟩ : ∃ b, rest[2]? = some b := ⟨rest.get ⟨2, by omega⟩, by simp⟩
  unfold isLocalLabel
  split
  · split
    · split <;> exact ⟨_, rfl⟩
    · simp only [hb]
      split <;> exact ⟨_, rfl⟩
    · simp only [hb]
      split <;> exact ⟨_, rfl⟩
    · exact ⟨_, rfl⟩
  · exact ⟨_, rfl⟩

/-- In front of the last two bytes a step finds a label, ends the search, or goes forward. -/
theorem searchLocal_step_any {search : Nat} (count : Nat) (wrapped : Bool)
    (hw : wrapped = true → search < start) (hend : search + 2 < text.length) :
    (∃ t, searchLocal strict arg text start (count + 1) search wrapped = .ok t) ∨
      ∃ size, 2 ≤ size ∧ searchLocal strict arg text start (count + 1) search wrapped
        = searchLocal strict arg text start count (search + size) wrapped := by
  have hgo : (wrapped && decide (start ≤ search)) = false := by
    cases wrapped with
    | false => rfl
    | true => simpa using hw rfl
  have hmid : ¬ text.length ≤ search + endBytes.length := by
    simp only [endBytes, length_cons, length_nil]
    omega
  have hlen : 3 ≤ (text.drop search).length := by
    rw [length_drop]
    omega
  obtain ⟨h, hread⟩ : ∃ h, Header.read? (text.drop search) = some h := by
    match hd : text.drop search with
    | [] | [_] => simp [hd] at hlen
    | a :: b :: _ => exact ⟨_, rfl⟩
  obtain ⟨found, hfound⟩ := isLocalLabel_ok strict arg h hlen
  rw [searchLocal]
  simp only [hgo, hmid, decide_false, Bool.false_eq_true, if_false, Bool.false_and, Bool.or_false,
    hread, hfound, bind, Except.bind]
  cases found with
  | true => exact Or.inl ⟨_, rfl⟩
  | false =>
    cases hsize : lineSize (text.drop search) with
    | error e => exact Or.inl ⟨_, rfl⟩
    | ok size =>
      refine Or.inr ⟨size, ?_, rfl⟩
      obtain ⟨h', used, -, -, -, hn, -⟩ := lineSize_eq_ok_iff.1 hsize
      have := h'.operandStart_le
      have := h'.le_sizeWith used (text.drop search)
      omega

theorem searchLocal_wrapped_ok (hstart : start + 2 ≤ text.length) (count search : Nat)
    (hcount : start - search < count) :
    ∃ t, searchLocal strict arg text start count search true = .ok t := by
  induction count generalizing search with
  | zero => omega
  | succ count ih =>
    by_cases hs : start ≤ search
    · refine ⟨targetNone, ?_⟩
      rw [searchLocal]
      simp [hs]
    · have hw : true = true → search < start := fun _ => by omega
      have hend : search + 2 < text.length := by omega
      rcases searchLocal_step_any strict arg count true hw hend with h | ⟨size, hsize, h⟩
      · exact h
      · rw [h]
        exact ih (search + size) (by omega)

theorem searchLocal_forward_ok (hstart : start + 2 ≤ text.length) (count search : Nat)
    (hcount : text.length - search + start < count) :
    ∃ t, searchLocal strict arg text start count search false = .ok t := by
  induction count generalizing search with
  | zero => omega
  | succ count ih =>
    by_cases hs : search + 2 < text.length
    · have hw : false = true → search < start := fun h => absurd h (by simp)
      rcases searchLocal_step_any strict arg count false hw hs with h | ⟨size, hsize, h⟩
      · exact h
      · rw [h]
        exact ih (search + size) (by omega)
    · have hend : text.length ≤ search + endBytes.length := by
        simp only [endBytes, length_cons, length_nil]
        omega
      rcases Nat.eq_zero_or_pos start with rfl | hpos
      · refine ⟨targetNone, ?_⟩
        rw [searchLocal]
        simp [hend]
      · rw [searchLocal_wrap strict arg count (fun h => absurd h (by simp)) hend hpos]
        exact searchLocal_wrapped_ok strict arg hstart (count + 1) 0 (by omega)

/-- A search that starts in front of the last two bytes, or at them, comes to an end. -/
theorem findLocal_ok (hstart : start + 2 ≤ text.length) :
    ∃ t, findLocal strict arg text start = .ok t :=
  searchLocal_forward_ok strict arg hstart _ _ (by simp only [Int.toNat_natCast]; omega)

end

end Keystroke
