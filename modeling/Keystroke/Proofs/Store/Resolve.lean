import Keystroke.Proofs.Store.Basic

set_option autoImplicit false

/-! # Looking up the target of a jump

Looking up a target writes into the four bytes that the jump keeps for it and nowhere else
(`Store.resolveTarget_writes_target_only`). The exceptions are stated with it. A jump to a negative
number is stored as one that keeps no target, but read back as one that does: the target is then
written over the operand of the jump and over what stands behind it, or there is no room for it at
all. And a jump to a line number counts lines from the top, which can leave the text when a number
among them is spelled with a zero byte. -/

namespace Keystroke

open Operation List

/-! ## One lookup -/

/-- The target that a jump has in a text, looked up from scratch: the offset of the line with its
    number, or of the label that is found from behind it. -/
def freshTarget (strict : Bool) (text : Bytes) (pc : Nat) (i : Instr) (size : Nat) :
    Except Error Int32 :=
  if i.command = .gtol || i.command = .xeql then
    (lineOffset text i.operand.num.toInt).map Int32.ofInt
  else findLocal strict i.operand text (pc + size : Nat)

namespace Store

variable {s : Store} {ref : ProgramRef} {p : Program} {front rest : Bytes} {l : Line}

section

variable (hp : s.program? ref = some p) (ht : p.buffer.text = front ++ (l.bytes ++ rest)) (hsize :
  (front.length : Int) ≤ maxOffset)

include hp ht hsize

/-- A line that keeps no target, or has it already, is only read. -/
theorem resolveTarget_of_known
    (h : hasJumpCache l.instr.command l.instr.operand.kind = false ∨ l.target ≠ targetUnknown) :
    resolveTarget ref front.length s = .ok (l.instr, l.size) s := by
  have hknown : (!hasJumpCache l.instr.command l.instr.operand.kind
      || decide (l.instr.operand.target ≠ targetUnknown)) = true := by
    rcases h with h | h
    · rw [h]
      rfl
    · rw [decide_eq_true (show l.instr.operand.target ≠ targetUnknown from h), Bool.or_true]
  unfold resolveTarget
  rw [bind_ok (getProgram_of_some hp)]
  simp only [decodeAt_line ht hsize, Except.mapError]
  rw [bind_ok (Edit.ofExcept_ok _)]
  simp only [hknown, if_true]
  rfl

theorem resolveTarget_of_unknown (hc : hasJumpCache l.instr.command l.instr.operand.kind = true)
    (hu : l.target = targetUnknown) :
    resolveTarget ref front.length s =
      match freshTarget s.options.strictLabels p.buffer.text front.length l.instr l.size with
      | .error e => .error e s
      | .ok t =>
        match writeTarget p.buffer.text front.length t with
        | .error e => .error e s
        | .ok text =>
          .ok (l.instr.withTarget t, l.size)
            (s.setProgram ref (p.withText text false)) := by
  have hopen : (!hasJumpCache l.instr.command l.instr.operand.kind
      || decide (l.instr.operand.target ≠ targetUnknown)) = false := by
    rw [hc, show l.instr.operand.target = targetUnknown from hu]
    rfl
  have hfresh : (if (l.instr.command = .gtol || l.instr.command = .xeql) = true then
      (lineOffset p.buffer.text l.instr.operand.num.toInt).map Int32.ofInt
      else s.findLocal ref ((front.length : Int) + l.size) l.instr.operand)
      = freshTarget s.options.strictLabels p.buffer.text front.length l.instr l.size := by
    simp only [freshTarget, Store.findLocal, hp, Nat.cast_add]
  unfold resolveTarget
  rw [bind_ok (getProgram_of_some hp)]
  simp only [decodeAt_line ht hsize, Except.mapError]
  rw [bind_ok (Edit.ofExcept_ok _)]
  simp only [hopen, Bool.false_eq_true, if_false]
  rw [get_bind, hfresh]
  cases hf : freshTarget s.options.strictLabels p.buffer.text front.length l.instr l.size with
  | error e => rw [bind_error (Edit.ofExcept_error e)]
  | ok t =>
    rw [bind_ok (Edit.ofExcept_ok t)]
    simp only [Int.toNat_natCast]
    cases hw : writeTarget p.buffer.text front.length t with
    | error e => rw [bind_error (Edit.ofExcept_error e)]
    | ok text =>
      rfl

end

end Store

/-! ## Stored lines -/

namespace Instr

/-- The bytes that a line can have in a program: as it was written, or with another target in the
    place that it keeps for one. -/
def StoredAs (i : Instr) (code : Bytes) : Prop :=
  ∃ written, i.encode = .ok written ∧
    (code = written ∨ i.storedHeader.cached = true ∧ ∃ t, code = patchTarget written t)

/-- Whether the line goes to, or calls, a label with a negative number. -/
def goesToNegative (i : Instr) : Bool :=
  (i.command == .gto || i.command == .xeq)
    && (i.operand.kind == .negNum || i.operand.kind == .num && i.operand.num < 0)

/-- Whether the line goes to, or calls, a line by its number. -/
def goesToLine (i : Instr) : Bool := i.command == .gtol || i.command == .xeql

/-- Whether the line is a number whose spelling has a zero byte. -/
def hasZeroByte (i : Instr) : Bool := i.command == .number && i.numberText.contains 0

theorem isNegativeJump_storedHeader (i : Instr) :
    i.storedHeader.isNegativeJump = i.goesToNegative := by
  have hcommand : i.storedHeader.command = i.command := rfl
  have hkind : i.storedHeader.kind = i.normalize.operand.kind := rfl
  simp only [Header.isNegativeJump, goesToNegative, hcommand, hkind]
  by_cases hj : (i.command == .gto || i.command == .xeq) = true
  · have hne : i.command ≠ .number := by
      intro hn
      rw [hn] at hj
      exact absurd hj (by decide)
    rw [hj, Bool.true_and, Bool.true_and, normalize]
    split
    · next hneg =>
      simp only [Bool.and_eq_true, decide_eq_true_eq] at hneg
      simp [hneg.1, hneg.2]
    · next hneg =>
      have hneg' : (i.operand.kind == .num && decide (i.operand.num < 0)) = false := by
        simpa using hneg
      simp only [hneg', Bool.or_false]
  · simp only [Bool.not_eq_true] at hj
    rw [hj, Bool.false_and, Bool.false_and]

theorem StoredAs.exists_line {i : Instr} {code : Bytes} (h : i.StoredAs code) :
    ∃ (l : Line) (behind : Bytes), code = l.bytes ++ behind ∧ l.header = i.storedHeader ∧
      (behind = [] ∨ i.hasZeroByte = true) := by
  obtain ⟨written, hw, hcode⟩ := h
  obtain ⟨l, behind, rfl, hh, hb⟩ := exists_line_front_of_encode hw
  have hzero : behind = [] ∨ i.hasZeroByte = true := by
    rcases hb with hb | ⟨hn, hz⟩
    · exact Or.inl hb
    · exact Or.inr (by simp [hasZeroByte, hn, hz])
  rcases hcode with rfl | ⟨hc, t, rfl⟩
  · exact ⟨l, behind, rfl, hh, hzero⟩
  · -- only jumps have a target, and they are no numbers
    have hnil : behind = [] := by
      rcases hb with hb | ⟨hn, -⟩
      · exact hb
      · exact absurd hn (Header.command_ne_number hc)
    subst hnil
    rw [append_nil, ← Line.bytes_withTarget t (by rw [hh, hc])]
    exact ⟨l.withTarget t, [], by simp, by rw [Line.header_withTarget, hh], Or.inl rfl⟩

end Instr

/-! ## Programs as stored lines -/

section

variable {codes : List Bytes} {k : Nat} {code : Bytes}

theorem flatten_at (h : codes[k]? = some code) :
    codes.flatten = (codes.take k).flatten ++ (code ++ (codes.drop (k + 1)).flatten) := by
  obtain ⟨hlt, rfl⟩ := List.getElem?_eq_some_iff.1 h
  calc codes.flatten = (codes.take k ++ codes.drop k).flatten := by rw [take_append_drop]
    _ = (codes.take k).flatten ++ (codes[k] ++ (codes.drop (k + 1)).flatten) := by
      rw [drop_eq_getElem_cons hlt, flatten_append, flatten_cons]

theorem length_flatten_take_le (codes : List Bytes) (k : Nat) :
    (codes.take k).flatten.length ≤ codes.flatten.length := by
  conv_rhs => rw [← take_append_drop k codes, flatten_append, length_append]
  omega

theorem flatten_set_at (code' : Bytes) (h : codes[k]? = some code) :
    (codes.set k code').flatten
      = (codes.take k).flatten ++ (code' ++ (codes.drop (k + 1)).flatten) := by
  obtain ⟨hlt, -⟩ := List.getElem?_eq_some_iff.1 h
  rw [set_eq_take_append_cons_drop, if_pos hlt]
  simp

/-- Lines start where they did when one is replaced by another of the same length. -/
theorem length_flatten_take_set {code' : Bytes} (h : codes[k]? = some code)
    (hlen : code'.length = code.length) (j : Nat) :
    ((codes.set k code').take j).flatten.length = (codes.take j).flatten.length := by
  obtain ⟨hlt, rfl⟩ := List.getElem?_eq_some_iff.1 h
  have hmap : (codes.set k code').map length = codes.map length := by
    rw [map_set, hlen]
    apply ext_getElem?
    intro i
    by_cases hi : i = k
    · subst hi
      simp [hlt]
    · rw [getElem?_set_ne (fun h => hi h.symm)]
  rw [length_flatten, length_flatten, map_take, map_take, hmap]

theorem decodeAt_flatten {l : Line} {behind : Bytes} (h : codes[k]? = some (l.bytes ++ behind))
    (hsize : (codes.flatten.length : Int) ≤ maxOffset) :
    decodeAt codes.flatten (codes.take k).flatten.length = .ok (l.instr, l.size) := by
  have hle := length_flatten_take_le codes k
  rw [flatten_at h, decodeAt_append _ _ (by omega), append_assoc, Line.decodeLine_append]
  rfl

/-- Texts that differ at most in the four bytes for the target of the line at an offset, and then
    only if that line keeps a target. -/
structure SameButTarget (text text' : Bytes) (pc : Nat) : Prop where
  length : text'.length = text.length
  outside : ∀ b, b < pc + 2 ∨ pc + 6 ≤ b → text'[b]? = text[b]?
  keeps : text' ≠ text → ∃ h, headerAt? text pc = some h ∧ h.cached = true

theorem SameButTarget.refl (text : Bytes) (pc : Nat) : SameButTarget text text pc :=
  ⟨rfl, fun _ _ => rfl, fun h => absurd rfl h⟩

theorem sameButTarget_writeTarget {text text' : Bytes} {pc : Nat} {t : Int32} {h : Header}
    (hw : writeTarget text pc t = .ok text') (hh : headerAt? text pc = some h)
    (hc : h.cached = true) : SameButTarget text text' pc := by
  unfold writeTarget at hw
  dsimp only at hw
  split at hw
  · exact absurd hw (by simp)
  · next hlen =>
    obtain rfl := Except.ok.inj hw
    simp only [Header.size, Header.cacheSize] at hlen ⊢
    have htake : (text.take (pc + 2)).length = pc + 2 := by
      rw [length_take]
      omega
    refine ⟨?_, ?_, fun _ => ⟨h, hh, hc⟩⟩
    · simp only [length_append, htake, length_targetBytes, length_drop]
      omega
    · rintro b (hb | hb)
      · rw [append_assoc, getElem?_append_left (by omega), getElem?_take_of_lt (by omega)]
      · have hfront : (text.take (pc + 2) ++ targetBytes t).length = pc + 6 := by
          rw [length_append, htake, length_targetBytes]
        rw [getElem?_append_right (by omega), hfront, getElem?_drop]
        congr 1
        omega

end

namespace Store

variable {s : Store} {ref : ProgramRef} {p : Program} {codes : List Bytes} {k : Nat}
  {l : Line} {behind : Bytes}

/-- A lookup in a line that goes to no negative number, its target being found if it has to be. -/
theorem resolveTarget_at_line (hp : s.program? ref = some p) (ht : p.buffer.text = codes.flatten)
    (hsize : (codes.flatten.length : Int) ≤ maxOffset)
    (hcode : codes[k]? = some (l.bytes ++ behind)) (hbehind : l.header.cached = true → behind = [])
    (hneg : l.header.isNegativeJump = false)
    (hfresh : l.header.cached = true → l.target = targetUnknown →
      ∃ t, freshTarget s.options.strictLabels codes.flatten
        (codes.take k).flatten.length l.instr l.size = .ok t) :
    ∃ line size text' flag,
      resolveTarget ref (codes.take k).flatten.length s
        = .ok (line, size) (s.setProgram ref (p.withText text' flag)) ∧
      SameButTarget codes.flatten text' (codes.take k).flatten.length ∧
      decodeAt text' (codes.take k).flatten.length = .ok (line, size) ∧
      (∃ t, decodeAt codes.flatten (codes.take k).flatten.length
        = .ok (line.withTarget t, size)) ∧
      ∀ j, j ≠ k → ∀ l' behind', codes[j]? = some (Line.bytes l' ++ behind') →
        decodeAt text' (codes.take j).flatten.length
          = decodeAt codes.flatten (codes.take j).flatten.length := by
  have hat := flatten_at hcode
  rw [List.append_assoc] at hat
  have hle : ((codes.take k).flatten.length : Int) ≤ maxOffset := by
    have := length_flatten_take_le codes k
    omega
  have hat' := ht.trans hat
  have hdecode := decodeAt_flatten hcode hsize
  have hjump := Line.hasJumpCache_instr hneg
  by_cases hopen : l.header.cached = true ∧ l.target = targetUnknown
  · obtain ⟨t, hfresh⟩ := hfresh hopen.1 hopen.2
    obtain rfl := hbehind hopen.1
    rw [List.append_nil] at hcode
    rw [List.nil_append] at hat hat'
    have hwrite := writeTarget_append (codes.take k).flatten (codes.drop (k + 1)).flatten t hopen.1
    rw [← hat, ← flatten_set_at (l.withTarget t).bytes hcode] at hwrite
    have hrun := resolveTarget_of_unknown hp hat' hle (by rw [hjump, hopen.1]) hopen.2
    rw [ht, hfresh] at hrun
    simp only [hwrite] at hrun
    have hlen : (l.withTarget t).bytes.length = l.bytes.length := l.size_withTarget t
    have hhead : headerAt? codes.flatten (codes.take k).flatten.length = some l.header := by
      exact headerAt?_line hat
    have hsame := sameButTarget_writeTarget hwrite hhead hopen.1
    have hplace := length_flatten_take_set hcode hlen
    have hsize' : ((codes.set k (l.withTarget t).bytes).flatten.length : Int) ≤ maxOffset := by
      rw [hsame.length]
      exact hsize
    have hcode' : (codes.set k (l.withTarget t).bytes)[k]?
        = some ((l.withTarget t).bytes ++ []) := by
      simp [(List.getElem?_eq_some_iff.1 hcode).1]
    refine ⟨_, _, _, _, hrun, hsame, ?_, ⟨l.target, hdecode⟩, ?_⟩
    · have := decodeAt_flatten hcode' hsize'
      rwa [hplace, Line.instr_withTarget t hopen.1, Line.size_withTarget] at this
    · intro j hj l' behind' hother
      have hother' : (codes.set k (l.withTarget t).bytes)[j]? = some (l'.bytes ++ behind') := by
        rw [List.getElem?_set_ne hj.symm, hother]
      have hdecode' := decodeAt_flatten hother' hsize'
      rw [hplace] at hdecode'
      rw [hdecode', decodeAt_flatten hother hsize]
  · have hknown : hasJumpCache l.instr.command l.instr.operand.kind = false
        ∨ l.target ≠ targetUnknown := by
      rw [hjump]
      by_cases hc : l.header.cached = true
      · exact Or.inr fun hu => hopen ⟨hc, hu⟩
      · exact Or.inl (by simpa using hc)
    refine ⟨l.instr, l.size, codes.flatten, p.cachesClear, ?_, SameButTarget.refl _ _, hdecode,
      ⟨l.target, hdecode⟩, fun _ _ _ _ _ => rfl⟩
    rw [resolveTarget_of_known hp hat' hle hknown, ← ht]
    exact congrArg _ (setProgram_self hp).symm

theorem negativeJump_instr {l : Line} (h : l.header.isNegativeJump = true) :
    hasJumpCache l.instr.command l.instr.operand.kind = true ∧ l.target = targetUnknown ∧
      l.instr.command ≠ .gtol ∧ l.instr.command ≠ .xeql := by
  simp only [Header.isNegativeJump, Bool.and_eq_true, Bool.or_eq_true, beq_iff_eq] at h
  obtain ⟨hj, hk⟩ := h
  have hcached : l.header.cached = false := by
    rcases hj with hj | hj <;> rw [Header.cached, hj, hk] <;> decide
  have hne : l.header.command ≠ .number := by
    rcases hj with hj | hj <;> rw [hj] <;> decide
  have hkind : l.instr.operand.kind = .num := by
    simp [Line.instr, Header.instrOf, hne, Header.operandOf, hcached, Line.readOperand_kind, hk]
  rw [hkind, Line.instr_command]
  refine ⟨?_, Line.target_of_not_cached hcached, ?_, ?_⟩ <;> rcases hj with hj | hj <;> rw [hj] <;>
    decide

theorem resolveTarget_at_negativeJump (hp : s.program? ref = some p)
    (ht : p.buffer.text = codes.flatten) (hsize : (codes.flatten.length : Int) ≤ maxOffset)
    (hcode : codes[k]? = some (l.bytes ++ behind))
    (hend : 2 ≤ (codes.drop (k + 1)).flatten.length) (hneg : l.header.isNegativeJump = true) :
    ∃ t, Keystroke.findLocal s.options.strictLabels l.instr.operand codes.flatten
        ((codes.take k).flatten.length + l.size : Nat) = .ok t ∧
      resolveTarget ref (codes.take k).flatten.length s =
        if codes.flatten.length < (codes.take k).flatten.length + 6 then .error .outOfBounds s
        else .ok (l.instr.withTarget t, l.size)
          (s.setProgram ref (p.withText
            (codes.flatten.take ((codes.take k).flatten.length + 2) ++ targetBytes t
              ++ codes.flatten.drop ((codes.take k).flatten.length + 6)) false)) := by
  have hat := flatten_at hcode
  rw [append_assoc] at hat
  have hlen : (codes.take k).flatten.length + l.size + 2 ≤ codes.flatten.length := by
    rw [hat]
    simp only [length_append, Line.size]
    omega
  obtain ⟨hjump, hunknown, hgtol, hxeql⟩ := negativeJump_instr hneg
  obtain ⟨t, hfind⟩ := findLocal_ok s.options.strictLabels l.instr.operand hlen
  refine ⟨t, hfind, ?_⟩
  have hfresh : freshTarget s.options.strictLabels codes.flatten (codes.take k).flatten.length
      l.instr l.size = .ok t := by
    rw [freshTarget, if_neg (by simp only [hgtol, hxeql]; decide), hfind]
  rw [resolveTarget_of_unknown hp (ht.trans hat) (by omega) hjump hunknown, ht, hfresh]
  simp only [writeTarget, Header.size, Header.cacheSize]
  by_cases hroom : codes.flatten.length < (codes.take k).flatten.length + 6
  · simp only [hroom, if_true]
  · simp only [hroom, if_false]

/-- Counting lines can only go wrong by leaving the text. -/
theorem passLines_cases (bound count here : Nat) (rest : Bytes) :
    (∃ n, passLines bound count here rest = .ok n) ∨
      passLines bound count here rest = .error .outOfBounds := by
  induction bound generalizing count here rest with
  | zero => exact Or.inl ⟨_, rfl⟩
  | succ bound ih =>
    cases count with
    | zero => exact Or.inl ⟨_, rfl⟩
    | succ count =>
      rw [passLines]
      split
      · exact Or.inr rfl
      · split
        · exact Or.inl ⟨_, rfl⟩
        · split
          · exact Or.inl ⟨_, rfl⟩
          · exact ih _ _ _

variable {lines : List Instr}

theorem exists_line_at (h : List.Forall₂ Instr.StoredAs lines codes) (hk : k < codes.length) :
    ∃ (i : Instr) (l : Line) (behind : Bytes), lines[k]? = some i ∧
      codes[k]? = some (l.bytes ++ behind) ∧ l.header = i.storedHeader ∧
      (behind = [] ∨ i.hasZeroByte = true) := by
  have hk' : k < lines.length := by rwa [h.length_eq]
  obtain ⟨l, behind, hcode, hh, hb⟩ := (h.get hk' hk).exists_line
  refine ⟨lines[k], l, behind, getElem?_eq_getElem hk', ?_, hh, hb⟩
  rw [getElem?_eq_getElem hk, ← hcode]
  rfl

/-- Without a zero byte in the spelling of a number the text is a list of lines. -/
theorem exists_textOf (h : List.Forall₂ Instr.StoredAs lines codes)
    (hz : lines.any Instr.hasZeroByte = false) :
    ∃ ls : List Line, codes.flatten = textOf ls := by
  induction h with
  | nil => exact ⟨[], rfl⟩
  | cons hcode _ ih =>
    simp only [any_cons, Bool.or_eq_false_iff] at hz
    obtain ⟨l, behind, rfl, -, hb⟩ := hcode.exists_line
    obtain ⟨ls, hls⟩ := ih hz.2
    have hnil : behind = [] := by
      rcases hb with hb | hb
      · exact hb
      · rw [hz.1] at hb
        exact absurd hb (by simp)
    exact ⟨l :: ls, by rw [flatten_cons, hls, hnil, append_nil, textOf_cons]⟩

/-- The target of a jump is found, unless counting lines leaves the text. -/
theorem freshTarget_cases (strict : Bool) (h : List.Forall₂ Instr.StoredAs lines codes)
    (hcode : codes[k]? = some (l.bytes ++ behind)) :
    (∃ t, freshTarget strict (codes.flatten ++ endBytes) (codes.take k).flatten.length l.instr
        l.size = .ok t) ∨
      (l.instr.command = .gtol ∨ l.instr.command = .xeql) ∧
        lines.any Instr.hasZeroByte = true ∧
        freshTarget strict (codes.flatten ++ endBytes) (codes.take k).flatten.length l.instr l.size
          = .error .outOfBounds := by
  unfold freshTarget
  split
  · next hwide =>
    simp only [Bool.or_eq_true, decide_eq_true_eq] at hwide
    cases hz : lines.any Instr.hasZeroByte with
    | false =>
      obtain ⟨ls, hls⟩ := exists_textOf h hz
      have htext : codes.flatten ++ endBytes = textOf (ls ++ [Line.endLine]) := by simp [hls]
      left
      rw [htext, lineOffset_textOf _ ⟨Line.endLine, by simp, rfl⟩]
      exact ⟨_, rfl⟩
    | true =>
      unfold lineOffset
      split
      · exact Or.inl ⟨_, rfl⟩
      · rcases passLines_cases ((codes.flatten ++ endBytes).length + 1)
          (l.instr.operand.num.toInt - 1).toNat 0 (codes.flatten ++ endBytes) with ⟨n, hn⟩ | hn
        · left
          rw [hn]
          exact ⟨_, rfl⟩
        · right
          rw [hn]
          exact ⟨hwide, rfl, rfl⟩
  · left
    apply findLocal_ok
    have hat := flatten_at hcode
    rw [hat]
    simp only [length_append, Line.size, endBytes, length_cons, length_nil]
    omega

/-- Looking up the target at a line succeeds and changes nothing but the four bytes that the line
    keeps for it, so that every line reads as before, the one at the offset but for its target.
    Where a number is spelled with a zero byte, counting lines may leave the text, and nothing is
    changed then. At a jump to a negative number the four bytes behind the header are written over,
    whatever they are, if there are as many. -/
theorem resolveTarget_writes_target_only {pc : Nat} (hp : s.program? ref = some p)
    (hcodes : List.Forall₂ Instr.StoredAs lines codes)
    (ht : p.buffer.text = codes.flatten ++ endBytes)
    (hsize : (p.buffer.text.length : Int) ≤ maxOffset) (hk : k ≤ codes.length)
    (hpc : pc = (codes.take k).flatten.length) :
    (lines[k]?.any Instr.goesToNegative = false →
      (∃ line size text' flag,
        resolveTarget ref pc s = .ok (line, size) (s.setProgram ref (p.withText text' flag)) ∧
        SameButTarget p.buffer.text text' pc ∧
        decodeAt text' pc = .ok (line, size) ∧
        (∃ t, decodeAt p.buffer.text pc
          = .ok (line.withTarget t, size)) ∧
        ∀ j ≤ codes.length, j ≠ k → decodeAt text' (codes.take j).flatten.length
          = decodeAt p.buffer.text (codes.take j).flatten.length) ∨
      lines[k]?.any Instr.goesToLine = true ∧ lines.any Instr.hasZeroByte = true ∧
        resolveTarget ref pc s = .error .outOfBounds s) ∧
    (lines[k]?.any Instr.goesToNegative = true →
      ∃ line size t, decodeAt p.buffer.text pc = .ok (line, size) ∧
        Keystroke.findLocal s.options.strictLabels line.operand p.buffer.text (pc + size : Nat)
          = .ok t ∧
        resolveTarget ref pc s =
          if p.buffer.text.length < pc + 6 then .error .outOfBounds s
          else .ok (line.withTarget t, size)
            (s.setProgram ref (p.withText
              (p.buffer.text.take (pc + 2) ++ targetBytes t ++ p.buffer.text.drop (pc + 6))
              false))) := by
  -- the END is one more stored line
  have hall : List.Forall₂ Instr.StoredAs (lines ++ [.plain .endLine]) (codes ++ [endBytes]) :=
    rel_append hcodes (.cons ⟨endBytes, by decide, .inl rfl⟩ .nil)
  have hflat : (codes ++ [endBytes]).flatten = p.buffer.text := by simp [ht]
  have htake : ∀ j ≤ codes.length, (codes ++ [endBytes]).take j = codes.take j :=
    fun j hj => take_append_of_le_length hj
  have hlen := hcodes.length_eq
  obtain ⟨i, l, behind, hi, hcode, hheader, hbehind⟩ :=
    exists_line_at hall (by simp; omega : k < (codes ++ [endBytes]).length)
  have hnegative : l.header.isNegativeJump = i.goesToNegative := by
    rw [hheader, Instr.isNegativeJump_storedHeader]
  have hany : ∀ f : Instr → Bool, f (.plain .endLine) = false → lines[k]?.any f = f i := by
    intro f hf
    rcases Nat.lt_or_ge k lines.length with hlt | hge
    · rw [getElem?_append_left hlt] at hi
      rw [hi, Option.any_some]
    · obtain rfl : k = lines.length := by omega
      simp only [getElem?_concat_length, Option.some.injEq] at hi
      rw [← hi, hf, getElem?_eq_none (le_refl _), Option.any_none]
  -- what does not hold of the END holds of another line only
  have hplace : ∀ f : Header → Bool, f (Instr.plain .endLine).storedHeader = false →
      f l.header = true → k < codes.length := by
    intro f hf hl
    by_contra hge
    obtain rfl : k = lines.length := by omega
    simp only [getElem?_concat_length, Option.some.injEq] at hi
    rw [hheader, ← hi, hf] at hl
    exact absurd hl (by simp)
  have hcommand : i.command = l.instr.command := by
    rw [Line.instr_command, hheader]
    rfl
  rw [hany _ (by decide), hany _ (by decide), ← hnegative]
  rw [← htake k hk] at hpc
  subst hpc
  have hsize' : ((codes ++ [endBytes]).flatten.length : Int) ≤ maxOffset := by rwa [hflat]
  constructor
  · intro hneg
    have hcached : l.header.cached = true → behind = [] := by
      intro hc
      rcases hbehind with hb | hb
      · exact hb
      · have hnumber : i.command = .number := by
          simp only [Instr.hasZeroByte, Bool.and_eq_true, beq_iff_eq] at hb
          exact hb.1
        exact absurd (by rw [hheader]; exact hnumber) (Header.command_ne_number hc)
    by_cases hopen : l.header.cached = true ∧ l.target = targetUnknown
      ∧ ∀ t, freshTarget s.options.strictLabels (codes ++ [endBytes]).flatten
        ((codes ++ [endBytes]).take k).flatten.length l.instr l.size ≠ .ok t
    · right
      obtain ⟨hc, hu, hfail⟩ := hopen
      obtain rfl := hcached hc
      have hlt := hplace (·.cached) (by decide) hc
      have hcode' := hcode
      rw [getElem?_append_left hlt] at hcode'
      rcases freshTarget_cases s.options.strictLabels hcodes hcode' with
        ⟨t, hfresh⟩ | ⟨hwide, hzero, hfresh⟩ <;> rw [← ht, ← hflat, ← htake k hk] at hfresh
      · exact absurd hfresh (hfail t)
      · refine ⟨by simpa [Instr.goesToLine, hcommand] using hwide, hzero, ?_⟩
        have hat := flatten_at hcode
        have hle := length_flatten_take_le (codes ++ [endBytes]) k
        rw [append_nil] at hat
        rw [resolveTarget_of_unknown hp (hflat.symm.trans hat) (by omega)
          (by rw [Line.hasJumpCache_instr hneg, hc]) hu, ← hflat, hfresh]
    · left
      have hfresh : l.header.cached = true → l.target = targetUnknown →
          ∃ t, freshTarget s.options.strictLabels (codes ++ [endBytes]).flatten
            ((codes ++ [endBytes]).take k).flatten.length l.instr l.size = .ok t := by
        intro hc hu
        by_contra hnone
        exact hopen ⟨hc, hu, fun t ht => hnone ⟨t, ht⟩⟩
      obtain ⟨line, size, text', flag, hrun, hsame, hline, hbefore, hothers⟩ :=
        resolveTarget_at_line hp hflat.symm hsize' hcode hcached hneg hfresh
      rw [hflat] at hsame hbefore hothers
      refine ⟨line, size, text', flag, hrun, hsame, hline, hbefore, fun j hj hne => ?_⟩
      obtain ⟨-, l', behind', -, hl', -, -⟩ :=
        exists_line_at hall (by simp; omega : j < (codes ++ [endBytes]).length)
      have hsame' := hothers j hne l' behind' hl'
      rwa [htake j hj] at hsame'
  · intro hneg
    have hlt := hplace (·.isNegativeJump) (by decide) hneg
    have hend : 2 ≤ ((codes ++ [endBytes]).drop (k + 1)).flatten.length := by
      rw [drop_append_of_le_length (by omega)]
      simp [endBytes]
    obtain ⟨t, hfind, hrun⟩ := resolveTarget_at_negativeJump hp hflat.symm hsize' hcode hend hneg
    have hdecode := decodeAt_flatten hcode hsize'
    rw [hflat] at hfind hrun hdecode
    exact ⟨l.instr, l.size, t, hdecode, hfind, hrun⟩

/-- `GTO -5` with two lines behind it: the lookup finds no label, and says so in the bytes of the
    operand and of the lines behind. -/
theorem resolveTarget_writes_over_lines :
    let p : Program := { buffer := ⟨[0x8F, 2, 0x85, 8, 0, 1, 0, 0x90, 0], [], 55⟩ }
    let s : Store := { options := {}, programs := [p] }
    ∃ line, resolveTarget (.user 0) 0 s = .ok (line, 3) (s.setProgram (.user 0)
      (p.withText [0x8F, 2, 0xFF, 0xFF, 0xFF, 0xFE, 0, 0x90, 0] false)) := by
  intro p s
  have hcodes : List.Forall₂ Instr.StoredAs
      [.withNum .gto (-5), .plain ⟨8⟩, .plain ⟨1⟩] [[0x8F, 2, 0x85], [8, 0], [1, 0]] :=
    .cons ⟨_, by decide, Or.inl rfl⟩ (.cons ⟨_, by decide, Or.inl rfl⟩
      (.cons ⟨_, by decide, Or.inl rfl⟩ .nil))
  have hp : s.program? (.user 0) = some p := rfl
  obtain ⟨line, size, t, hline, hfind, hrun⟩ :=
    (resolveTarget_writes_target_only hp hcodes rfl (by decide) (Nat.zero_le 3) rfl).2 rfl
  have hdecode : decodeAt p.buffer.text 0 = .ok (Instr.withNum .gto (-5), 3) := by decide
  obtain ⟨rfl, rfl⟩ := Prod.mk.inj (Except.ok.inj (hline.symm.trans hdecode))
  have hnone : Keystroke.findLocal false (Instr.withNum .gto (-5)).operand p.buffer.text 3
      = .ok targetNone := rfl
  obtain rfl := Except.ok.inj (hfind.symm.trans hnone)
  exact ⟨_, hrun⟩

end Store

end Keystroke
