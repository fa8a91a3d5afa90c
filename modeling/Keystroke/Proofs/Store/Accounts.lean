import Keystroke.Proofs.Store.Places
import Keystroke.Proofs.Store.Refusal

set_option autoImplicit false

/-! # Exact accounts of memory

Memory in use is the capacity of all buffers, for every store that operations lead to
(`Served.accounted`); a buffer holds at least its END, what is written into a buffer in place has
room there, and the limit is kept. Offsets in the operations are those of lines, and numbers are
spelled without zero bytes. -/

namespace Keystroke

variable {α : Type} {most : Nat}
variable {extra n : Nat} {bytes : Bytes} {pc : Int} {o options : Options} {b c : Buffer}

open Operation

namespace Store

variable {s t : Store} {ref : ProgramRef} {p : Program}

/-! ## Books that are right -/

/-- Memory is counted for the capacity of all buffers, and every program is a list of lines with its
    END. -/
structure Books (o : Options) (s : Store) : Prop where
  options : s.options = o
  used : s.used = inWord s.total
  legible : s.Legible

/-- How an operation ends that keeps the books. It breaks off only when a buffer of more bytes than
    any can have is asked for, and then of at most `most`. -/
def Serves {α : Type} (s : Store) (most : Nat) : EStateM.Result Error Store α → Prop :=
  Outcome (fun _ t => t.Books s.options ∧ s.Allows t) fun e _ =>
    e.isCrash = true → maxCapacity < most

namespace Books

section

variable (h : s.Books o)

include h

theorem word : inWord s.used = s.used := by
  rw [h.used, inWord, inWord, Int.bmod_bmod]

theorem serves_same {a : α} (hoptions : t.options = s.options)
    (hused : t.used = s.used) (htotal : t.total = s.total) (hread : t.Legible) :
    s.Serves most (.ok a t) :=
  .ok ⟨⟨hoptions, by rw [hused, htotal, h.used], hread⟩, .inl (Nat.le_of_eq htotal)⟩

theorem serves_edited {P : Instr → Prop} {size : Nat} {r : EStateM.Result Error Store α}
    (hr : Edited P s size r) : s.Serves (appetite s.options s.total size) r := by
  cases hr with
  | @ok a t u hchange hagree hbalanced hallows _ =>
    refine .ok ⟨⟨hagree.options.trans hchange.options, ?_,
      (hchange.legible h.legible).of_agree hagree.symm⟩, hallows⟩
    rw [hbalanced h.word, h.used, inWord_add_inWord, add_sub_cancel]
  | error _ hcrash => exact .error hcrash

theorem serves_setProgram {a : α} {q : Program}
    (hp : s.program? ref = some p) (hq : ∃ ls, q.Holds ls)
    (hsize : q.buffer.capacity = p.buffer.capacity) :
    s.Serves most (.ok a (s.setProgram ref q)) := by
  have htotal := total_setProgram hp q
  exact h.serves_same (options_setProgram ..) (used_setProgram ..) (by omega)
    (h.legible.setProgram hp hq)

theorem serves_endBulkLoad : s.Serves most (endBulkLoad s) := by
  by_cases h0 : s.loading = 0
  · rw [endBulkLoad_of_zero h0]
    exact h.serves_same rfl rfl rfl h.legible
  by_cases h1 : s.loading = 1
  · obtain ⟨ps, es, s', hrun, hs', hps, hes, hused, htotal, -⟩ :=
      endBulkLoad_last h1 h.legible.programs h.legible.slots
    rw [hrun]
    refine h.serves_same hs'.options hused htotal (Legible.of_agree ⟨?_, ?_⟩ hs'.symm)
    · intro p hp
      obtain ⟨q, -, ls, -, hq, -⟩ := exists_left_of_mem hps hp
      exact ⟨_, hq.holds⟩
    · intro p hp
      obtain ⟨slot, -, hslot⟩ := exists_left_of_mem hes hp
      cases hslot with
      | some hq =>
        obtain ⟨ls, -, hq, -⟩ := hq
        exact ⟨_, hq.holds⟩
  · rw [endBulkLoad_inner (by omega)]
    exact h.serves_same rfl rfl rfl ⟨h.legible.programs, h.legible.slots⟩

/-- Reading a line writes a target over another, or nothing. -/
theorem serves_resolveTarget {k : Option Nat} (hat : s.At ref pc k)
    (hneg : ∀ p header, s.program? ref = some p → headerAt? p.buffer.text pc = some header →
      header.isNegativeJump = false) (size : Nat) :
    s.Serves (appetite s.options s.total size) (resolveTarget ref pc s) := by
  cases hp : s.program? ref with
  | none =>
    rw [resolveTarget_of_none hp]
    exact .error fun hcrash => by cases hcrash
  | some p =>
    obtain ⟨ls, hls⟩ := h.legible.program? hp
    have hle : pc ≤ (textOf ls).length := by
      rcases at_cases hp hls hat with ⟨rfl, -⟩ | ⟨rfl, -⟩ | ⟨front, l, back, rfl, rfl, -⟩
      · omega
      · exact Int.le_refl _
      · rw [textOf_append, List.length_append]
        omega
    have hfetched := fetched_of_at hp hls hat fun header => hneg p header hp
    generalize resolveTarget ref pc s = r at hfetched
    cases hfetched with
    | refused _ hcrash =>
      exact .error fun he => maxCapacity_lt_appetite hp hls hle (hcrash he).1 size
    | line => exact h.serves_same rfl rfl rfl h.legible
    | @found p front back l t hp hl _ _ _ _ =>
      refine h.serves_setProgram hp ⟨_, hl.withTarget t false⟩ ?_
      have hsize := l.size_withTarget t
      rw [Line.size, Line.size] at hsize
      simp only [Program.withText, Buffer.capacity, hl.text, textOf_append, textOf_cons,
        List.length_append, hsize]

theorem serves_notes {a : α} {t : Store}
    (hnotes : s.Notes t) : s.Serves most (.ok a t) := by
  rcases hnotes with rfl | ⟨ref, p, n, hp, rfl⟩
  · exact h.serves_same rfl rfl rfl h.legible
  · obtain ⟨ls, hls⟩ := h.legible.program? hp
    exact h.serves_setProgram hp ⟨ls, hls.text, hls.notEnd⟩ rfl

end

end Books

/-! ## What is written in place -/

/-- Bytes that an operation writes into a buffer without asking for more room. The buffer is as it
    stands just before: new or with room made for the bytes, or cut off where they go. -/
inductive Writes (s : Store) : Buffer → Bytes → Prop
  /-- The END of a new program or slot, also of the first program of a new store. -/
  | created {s0 t : Store} {b : Buffer} (hs : s0 = s ∨ s0 = { options := s.options })
      (hrun : newBuffer endBytes.length s0 = .ok b t) : Writes s b endBytes
  /-- A line. -/
  | line {t : Store} {ref : ProgramRef} {p : Program} {b : Buffer} {code : Bytes}
      (hp : s.program? ref = some p) (hrun : reserve p.buffer code.length s = .ok b t) :
      Writes s b code
  /-- The END of the first half of a program that is cut in two. -/
  | front {ref : ProgramRef} {p : Program} {place : Nat} (hp : s.program? ref = some p)
      (hplace : place + endBytes.length ≤ p.buffer.text.length) :
      Writes s (p.buffer.truncate place) endBytes
  /-- The second half. -/
  | back {t : Store} {ref : ProgramRef} {p : Program} {place : Nat} {b : Buffer}
      (hp : s.program? ref = some p)
      (hrun : newBuffer (p.buffer.text.drop place).length s = .ok b t) :
      Writes s b (p.buffer.text.drop place)
  /-- The second of two programs that are joined, in the place of the END of the first. -/
  | joined {t : Store} {i : Int} {p q : Program} {b : Buffer} (hp : s.program? (.user i) = some p)
      (hq : s.programs[i.toNat + 1]? = some q)
      (hrun : reserve p.buffer (q.buffer.text.length - endBytes.length) s = .ok b t) :
      Writes s (b.truncate (b.text.length - endBytes.length)) q.buffer.text
  /-- The END of a program whose lines are all taken out. -/
  | cleared {ref : ProgramRef} {p : Program} (hp : s.program? ref = some p) :
      Writes s (p.buffer.truncate 0) endBytes

theorem room_newBuffer {size : Nat} (hrun : newBuffer size s = .ok b t) :
    b.text.length + size ≤ b.capacity := by
  rcases newBuffer_cases size s with ⟨c, hok, hc⟩ | ⟨e, used, herror, -⟩
  · obtain ⟨rfl, -⟩ := EStateM.Result.ok.inj (hrun.symm.trans hok)
    rw [Buffer.capacity_empty]
    simpa [Buffer.empty] using hc.enough
  · cases hrun.symm.trans herror

theorem room_reserve (hrun : reserve b extra s = .ok c t) :
    c.text = b.text ∧ c.text.length + extra ≤ c.capacity := by
  rcases reserve_cases b extra s with ⟨d, used, hok, htext, hd, -⟩ | ⟨e, used, herror, -⟩
  · obtain ⟨rfl, -⟩ := EStateM.Result.ok.inj (hrun.symm.trans hok)
    exact ⟨htext, htext ▸ hd.enough⟩
  · cases hrun.symm.trans herror

theorem Legible.fits (h : s.Legible) (hw : s.Writes b bytes) :
    b.text.length + bytes.length ≤ b.capacity := by
  have htwo {ref : ProgramRef} {p : Program} (hp : s.program? ref = some p) :
      endBytes.length ≤ p.buffer.text.length := by
    obtain ⟨ls, hls⟩ := h.program? hp
    exact hls.two_le_length
  cases hw with
  | created hs hrun => exact room_newBuffer hrun
  | line hp hrun => exact (room_reserve hrun).2
  | front _ hplace => exact Buffer.room_truncate hplace
  | back _ hrun => exact room_newBuffer hrun
  | cleared hp => exact Buffer.room_truncate (by simpa using htwo hp)
  | @joined t i p q b hp hq hrun =>
    obtain ⟨htext, hroom⟩ := room_reserve hrun
    have hfirst := htwo hp
    rw [← htext] at hfirst
    rw [Buffer.capacity_truncate]
    simp only [Buffer.truncate, List.length_take]
    omega

end Store

/-! ## Sequences of operations -/

/-- What can be done with a store: requests, and notes of pending returns. -/
inductive Act where
  | ask (r : Request)
  | retain (ref : ProgramRef)
  | release (ref : ProgramRef)

namespace Act

open Store

def run : Act → Edit Reply
  | ask r => r.run
  | retain ref => do modify (·.retain ref); return .done
  | release ref => do modify (·.release ref); return .done

/-- Offsets are those of lines, numbers are spelled without zero bytes, and no target is looked up
    at a jump to a negative number. -/
def Fair (s : Store) : Act → Prop
  | ask (.insert ref pc line) | ask (.insertAfter ref pc line) =>
    (∃ k, s.At ref pc k) ∧ line.hasZeroByte = false
  | ask (.delete ref pc) => ∃ k, s.At ref pc k
  | ask (.resolve ref pc) => (∃ k, s.At ref pc k) ∧
    ∀ p header, s.program? ref = some p → headerAt? p.buffer.text pc = some header →
      header.isNegativeJump = false
  | _ => True

/-- The bytes of a line that is put in. -/
def size (s : Store) : Act → Nat
  | ask (.insert _ _ line) | ask (.insertAfter _ _ line) => s.storedSize line
  | _ => 0

/-- A bound on the capacity that is asked for at once. -/
def appetite (s : Store) (a : Act) : Nat := Store.appetite s.options s.total (a.size s)

variable {s : Store} {a : Act}

theorem refuses_run (a : Act) : Refuses a.run := by
  cases a with
  | ask r => exact r.refuses_run
  | retain ref | release ref => exact Sure.refuses ((Sure.modify _).bind fun _ => .pure _)

/-- The rules that fair acts keep to. -/
def rules : Rules := ⟨fun line => line.hasZeroByte = false, True⟩

theorem serves_run (h : s.Books o) (ha : a.Fair s) : s.Serves (a.appetite s) (a.run s) := by
  have hsame {t : Store} {reply : Reply} (ht : t.Legible) (hoptions : t.options = s.options)
      (hused : t.used = s.used) (htotal : t.total = s.total) :
      s.Serves (a.appetite s) (.ok reply t) := h.serves_same hoptions hused htotal ht
  cases a with
  | retain ref => exact h.serves_notes (notes_retain _ ref)
  | release ref => exact h.serves_notes (notes_release _ ref)
  | ask r =>
    cases hedit : r.isEdit with
    | true =>
      have hr : r.Obeys rules s ∧ r.size s = (ask r).size s := by
        cases r <;> first | exact ⟨ha, rfl⟩ | cases hedit
      have hedited := r.run_edited h.legible hr.1 hedit
        (fun line line' hz hline => by
          obtain ⟨hcommand, hspelling⟩ := resolved?_same hline
          change line'.hasZeroByte = false
          rw [Instr.hasZeroByte, hcommand, hspelling]
          exact hz)
        fun line hz => by simpa [rules, Instr.hasZeroByte] using hz
      rw [hr.2] at hedited
      exact h.serves_edited hedited
    | false =>
      cases r with
      | beginBulkLoad | openGenerated | closeGenerated =>
        exact hsame ⟨h.legible.programs, h.legible.slots⟩ rfl rfl rfl
      | endBulkLoad => exact h.serves_endBulkLoad.bind fun _ _ ht => .ok ht
      | resolve ref pc =>
        obtain ⟨⟨k, hat⟩, hneg⟩ := ha
        exact (h.serves_resolveTarget hat hneg _).bind fun _ _ ht => .ok ht
      | _ => cases hedit

end Act

/-- The stores that fair acts lead to from a new one, whether they succeed or are refused, while all
    buffers together have less than 2⁶² bytes. -/
inductive Served (options : Options) : Store → Prop
  | new {s : Store} (h : Store.new options = .ok s) : Served options s
  | ok {s t : Store} {a : Act} {reply : Reply} (h : Served options s) (ha : a.Fair s)
      (hrun : a.run s = .ok reply t) (hroom : t.total < 2 ^ 62) : Served options t
  | refused {s t : Store} {a : Act} {e : Error} (h : Served options s) (ha : a.Fair s)
      (hrun : a.run s = .error e t) (he : e.isCrash = false) : Served options t

namespace Store

variable {s t : Store}

theorem inWord_of_lt (h : n < 2 ^ 63) : inWord n = n := by
  rw [inWord, Int.bmod_eq_of_le] <;> omega

/-- Memory in use is exact, and within the limit of the settings if they have one. -/
structure Exact (o : Options) (s : Store) : Prop extends Books o s where
  small : s.total < 2 ^ 62
  limit : 0 < o.memoryLimit → (s.total : Int) ≤ o.memoryLimit

/-- Where no sum wraps around, the limit holds for what is taken on the way, and so for what
    stays. -/
theorem Exact.of_allows (h : s.Exact o) (ht : t.Books o) (hallows : s.Allows t)
    (hsmall : t.total < 2 ^ 62) : t.Exact o := by
  refine ⟨ht, hsmall, fun hpos => ?_⟩
  have hlimit := h.limit hpos
  have hn := h.small
  rcases hallows with hle | ⟨top, hle, htop, hwithin⟩
  · omega
  · rw [h.options, h.used, inWord_add_inWord, add_sub_cancel, inWord_of_lt (by omega)] at hwithin
    omega

/-- The buffer of the first program has the least capacity of buffers, or holds its END only. -/
theorem exact_new (h : Store.new options = .ok s) :
    s.Exact options.normalize ∧
      ∀ p ∈ s.programs, p.buffer.capacity ≤ max 2 options.normalize.initialCapacity.toNat := by
  unfold Store.new at h
  dsimp only at h
  rcases emptyProgram_cases false { options := options.normalize } with
    ⟨p, hrun, hp, hgranted⟩ | ⟨e, used, hrun, -⟩
  · obtain ⟨labels, hlabels, -⟩ := rebuildLabels_of_readable (s := {
      options := options.normalize
      used := inWord (0 + p.buffer.capacity)
      programs := [p] }) (readable_cons.2 ⟨hp.exists_holds, by simp [Readable]⟩)
    simp only [hrun, hlabels] at h
    obtain rfl := Except.ok.inj h
    have hend : endBytes.length = 2 := rfl
    obtain ⟨hsize, hmost, hlimit⟩ :
      p.buffer.capacity ≤ max 2 options.normalize.initialCapacity.toNat ∧
        p.buffer.capacity ≤ max 2 maxCapacity ∧ (0 < options.normalize.memoryLimit →
          inWord (0 + p.buffer.capacity) ≤ options.normalize.memoryLimit) := by
      rcases hgranted.fresh with hnone | ⟨-, hsize, hmost, hlimit⟩
      · have henough := hgranted.enough
        omega
      · rw [Nat.mul_zero, Nat.zero_max, hend] at hsize
        exact ⟨hsize, hmost, hlimit⟩
    rw [maxCapacity] at hmost
    refine ⟨⟨⟨rfl, ?_, readable_cons.2 ⟨hp.exists_holds, by simp [Readable]⟩, by simp⟩, ?_, ?_⟩,
      by simpa using hsize⟩
    · simp [total]
    · simp only [total, List.map_cons, List.map_nil, List.sum_cons, List.sum_nil]
      omega
    · intro hpos
      have hword := hlimit hpos
      rw [Int.zero_add, inWord_of_lt (by omega)] at hword
      simpa [total] using hword
  · rw [hrun] at h
    dsimp only at h
    split at h
    · cases h
    · next hcrash =>
      obtain rfl := Except.ok.inj h
      have hsame := refuses_emptyProgram false _ _ _ hrun (by simpa using hcrash)
      rw [hsame]
      exact ⟨⟨⟨rfl, by simp [total, inWord], by simp [Readable], by simp⟩, by simp [total],
        fun hpos => Int.le_of_lt hpos⟩, by simp⟩

end Store

theorem Served.exact {s : Store} (h : Served options s) : s.Exact options.normalize := by
  induction h with
  | new h => exact (Store.exact_new h).1
  | @ok s t a reply _ ha hrun hroom ih =>
    have hserved := Act.serves_run ih.toBooks ha
    rw [hrun, Store.Serves, ih.options] at hserved
    cases hserved with
    | ok ht => exact ih.of_allows ht.1 ht.2 hroom
  | @refused s t a e _ _ hrun he ih =>
    obtain rfl := a.refuses_run s e t hrun he
    exact ih

/-- Memory in use is the capacity of all buffers together, and within the limit if there is one.
    Every buffer has at least its END, and at most as many bytes as its capacity; what operations
    write into it in place has room there. No operation crashes, unless it asks for a buffer that is
    larger than any can be. -/
theorem Served.accounted {options : Options} {s : Store} (h : Served options s) :
    s.used = s.total ∧
    (∀ p, p ∈ s.programs ∨ some p ∈ s.equations →
      2 ≤ p.buffer.text.length ∧ p.buffer.text.length ≤ p.buffer.capacity) ∧
    (∀ b bytes, s.Writes b bytes → b.text.length + bytes.length ≤ b.capacity) ∧
    (0 < options.memoryLimit → s.used ≤ options.memoryLimit) ∧
    ∀ (a : Act) (e : Error) (t : Store), a.Fair s → a.run s = .error e t → e.isCrash = true →
      Store.maxCapacity < a.appetite s := by
  have hs := h.exact
  have hused : s.used = s.total := by
    rw [hs.used, Store.inWord_of_lt (Nat.lt_trans hs.small (by decide))]
  refine ⟨hused, ?_, fun b bytes hw => hs.legible.fits hw, ?_, ?_⟩
  · intro p hp
    obtain ⟨ls, hls⟩ : ∃ ls, p.Holds ls := hp.elim (hs.legible.programs p) (hs.legible.slots p)
    exact ⟨hls.two_le_length, Buffer.length_text_le_capacity p.buffer⟩
  · intro hpos
    rw [hused]
    exact hs.limit hpos
  · intro a e t ha hrun hcrash
    have hserved := Act.serves_run hs.toBooks ha
    rw [hrun] at hserved
    cases hserved with
    | error hbig => exact hbig hcrash

namespace Store

/-- Twenty bytes of memory, and buffers of eight. -/
def scarce : Options where
  memoryLimit := 20
  initialCapacity := 8

/-- A program with LBL 01 in it `k` times, in a buffer of `c` bytes, and the slots `es`. -/
def filled (k c : Nat) (es : List (Option Program)) (used : Int) : Store where
  options := scarce
  programs := [{
    buffer := ⟨(List.replicate k [0x5C, 0x01, 0x81]).flatten ++ endBytes, [], c - 3 * k - 2⟩
    cachesClear := 0 < k }]
  equations := es
  labels := [⟨none, 0, 3 * k⟩]
  used := used
  edits := k

end Store

/-- The third line doubles the capacity. Then there is no memory for the second half when an END is
    put behind the first line, and a slot gets the two bytes that its END needs. -/
theorem Served.accounted_filled :
    let s := Store.filled 3 16 [some { buffer := ⟨endBytes, [], 0⟩, generated := true }] 18
    Served Store.scarce s ∧ s.used = s.total ∧ s.used ≤ 20 := by
  intro s
  let put : Act :=
    .ask (.insert (.user 0) (-1) { command := .lbl, operand := { kind := .num, num := 1 } })
  have hput (t : Store) : put.Fair t := ⟨⟨none, rfl⟩, rfl⟩
  have hnew : Served Store.scarce (Store.filled 0 8 [] 8) := .new (by cbv)
  have hone : Served Store.scarce (Store.filled 1 8 [] 8) := hnew.ok (hput _) rfl (by decide)
  have htwo : Served Store.scarce (Store.filled 2 8 [] 8) := hone.ok (hput _) rfl (by decide)
  have hthree : Served Store.scarce (Store.filled 3 16 [] 16) := htwo.ok (hput _) rfl (by decide)
  have hcut : Act.Fair (Store.filled 3 16 [] 16) (.ask (.insert (.user 0) 3 (.plain .endLine))) :=
    ⟨⟨some 1, _, 3, rfl, by decide, rfl⟩, rfl⟩
  have hrefused : Served Store.scarce (Store.filled 3 16 [] 16) := hthree.refused hcut rfl rfl
  have hserved : Served Store.scarce s :=
    hrefused.ok (a := .ask .newEquationSlot) trivial rfl (by decide)
  obtain ⟨hexact, -, -, hlimit, -⟩ := hserved.accounted
  exact ⟨hserved, hexact, hlimit (by decide)⟩

end Keystroke
