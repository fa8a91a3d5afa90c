import Keystroke.Project.EquationFile
import Keystroke.Proofs.Algebra.Spacing

set_option autoImplicit false

/-! # Where errors are

The parser reports an error at the offset of a token that it has seen, of the end of the tokens, or
of the node of a tree, and nodes are at the offsets of tokens too. So every error is at a token of
the text, at its first malformed number or at its end. -/

namespace Keystroke

/-- The tokens and the end of a stream are at given offsets. -/
structure TokenStream.Marked (Q : Nat → Prop) (s : TokenStream) : Prop where
  tokens : ∀ t ∈ s.tokens, Q t.offset
  stop : Q s.stop

namespace Parse

open TokenStream

variable {α β : Type} {Q : Nat → Prop} {R : α → Prop} {R' : β → Prop} {p : Parse α}
  {offset : Nat} {cause : SyntaxFault} {t : Token} {e : Expr}

/-- From tokens at given offsets the reader gives a result of a kind or an error at such an
    offset. -/
def Points (Q : Nat → Prop) (R : α → Prop) (p : Parse α) : Prop :=
  ∀ s : TokenStream, s.Marked Q → match p s with
    | .ok (a, s') => R a ∧ s'.Marked Q
    | .error e => Q e.offset

/-! ## Steps -/

theorem Points.bind {f : α → Parse β} (hp : Points Q R p) (hf : ∀ a, R a → Points Q R' (f a)) :
    Points Q R' (p >>= f) := by
  intro s hs
  have hp := hp s hs
  show match StateT.bind p f s with
    | .ok (a, s') => R' a ∧ s'.Marked Q
    | .error e => Q e.offset
  unfold StateT.bind
  cases hrun : p s with
  | error e => simpa [hrun, Bind.bind, Except.bind] using hp
  | ok x =>
    obtain ⟨a, s'⟩ := x
    simp only [hrun] at hp
    exact hf a hp.1 s' hp.2

theorem points_pure {a : α} (h : R a) : Points Q R (pure a : Parse α) := fun _ hs => ⟨h, hs⟩

theorem points_failAt (h : Q offset) : Points Q R (failAt offset cause) := fun _ _ => h

/-- Nothing is read behind a failure. -/
theorem points_failAt_bind {f : α → Parse β} (h : Q offset) :
    Points Q R' (failAt offset cause >>= f) :=
  Points.bind (R := fun _ => False) (points_failAt h) fun _ hfalse => hfalse.elim

theorem points_peek : Points Q (fun t : Token => Q t.offset) peek := by
  intro s hs
  obtain ⟨tokens, ending⟩ := s
  cases tokens with
  | cons t ts => exact ⟨hs.tokens t List.mem_cons_self, hs⟩
  | nil =>
    cases ending with
    | ok n => exact ⟨hs.stop, hs⟩
    | error bad => exact hs.stop

theorem points_advance : Points Q (fun _ => True) advance := fun _ hs =>
  ⟨trivial, fun t ht => hs.tokens t (List.mem_of_mem_tail ht), hs.stop⟩

theorem points_remaining : Points Q (fun _ => True) remaining := fun _ hs => ⟨trivial, hs⟩

theorem points_next : Points Q (fun t : Token => Q t.offset) next :=
  points_peek.bind fun _ ht => points_advance.bind fun _ _ => points_pure ht

theorem points_expect (k : TokenKind) : Points Q (fun _ => True) (expect k) :=
  points_next.bind fun t ht => by
    split
    · exact points_pure trivial
    · exact points_failAt ht

theorem points_checkLength (ht : Q t.offset) : Points Q (fun _ => True) (checkLength t) := by
  unfold checkLength
  split
  · exact points_failAt ht
  · exact points_pure trivial

theorem points_name : Points Q (fun _ => True) name := points_next.bind fun t ht => by
    split
    · exact (points_checkLength ht).bind fun _ _ => points_pure trivial
    · exact points_failAt_bind ht

theorem points_checkNumber (he : Q e.offset) : Points Q (fun _ => True) (checkNumber t e) := by
  unfold checkNumber
  split
  · exact points_failAt he
  · exact points_pure trivial

theorem points_checkCondition (he : Q e.offset) :
    Points Q (fun _ => True) (checkCondition t e) := by
  unfold checkCondition
  split
  · exact points_pure trivial
  · exact points_failAt he

theorem points_checkConnective {c : Context} (ht : Q t.offset) (he : Q e.offset) :
    Points Q (fun _ => True) (checkConnective c t e) := by
  unfold checkConnective
  split
  · exact points_checkCondition he
  · exact points_failAt_bind ht

/-! ## Levels -/

section Levels

/-- The reader gives a tree whose node is at a given offset. -/
abbrev PointsExpr (Q : Nat → Prop) : Parse Expr → Prop := Points Q fun e => Q e.offset

variable {operator? : Token → Option BinaryOp} {checkLeft checkRight : Token → Expr → Parse Unit}
  {operand primary : Parse Expr} {context : Context}

section

variable (hleft : ∀ t e, Q t.offset → Q e.offset → Points Q (fun _ => True) (checkLeft t e)) (hright
  : ∀ t e, Q e.offset → Points Q (fun _ => True) (checkRight t e)) (hoperand : PointsExpr Q operand)

include hleft hright hoperand

theorem points_chain (count : Nat) {left : Expr} (he : Q left.offset) :
    PointsExpr Q (chain operator? checkLeft checkRight operand count left) := by
  induction count generalizing left with
  | zero => exact points_pure he
  | succ count ih =>
    refine points_peek.bind fun t ht => ?_
    split
    · exact points_pure he
    · refine points_advance.bind fun _ _ => (hleft t left ht he).bind fun _ _ =>
        hoperand.bind fun right hr => (hright t right hr).bind fun _ _ => ih ht

theorem points_chainLeft : PointsExpr Q (chainLeft operator? checkLeft checkRight operand) :=
  hoperand.bind fun _ he => points_remaining.bind fun _ _ =>
    points_chain hleft hright hoperand _ he

end

theorem points_signed (hoperand : PointsExpr Q operand) : PointsExpr Q (signed operand) := by
  refine points_remaining.bind fun count _ => ?_
  induction count + 1 with
  | zero => exact hoperand
  | succ count ih =>
    refine points_peek.bind fun t ht => ?_
    split
    · exact hoperand
    · exact points_advance.bind fun _ _ => ih.bind fun e he =>
        (points_checkNumber he).bind fun _ _ => points_pure ht

theorem points_sum (h : PointsExpr Q primary) : PointsExpr Q (sum primary) := by
  have hnumber : ∀ (t : Token) (e : Expr), Q e.offset →
      Points Q (fun _ => True) (checkNumber t e) := fun _ _ => points_checkNumber
  have hpower : PointsExpr Q (power primary) := h.bind fun _ he => points_remaining.bind fun _ _ =>
    points_chain (fun t e _ => hnumber t e) hnumber (points_signed h) _ he
  exact points_chainLeft (fun t e _ => hnumber t e) hnumber
    (points_chainLeft (fun t e _ => hnumber t e) hnumber (points_signed hpower))

theorem points_comparison (h : PointsExpr Q primary) :
    PointsExpr Q (comparison primary context) := by
  have hsum := points_sum h
  refine hsum.bind fun left hl => points_peek.bind fun t ht => ?_
  split
  · exact points_pure hl
  · refine points_advance.bind fun _ _ => (points_checkNumber hl).bind fun _ _ => ?_
    have hright (op : BinaryOp) : PointsExpr Q (do
        let right ← sum primary
        checkNumber t right
        return .binary t.offset op left right) :=
      hsum.bind fun _ hr => (points_checkNumber hr).bind fun _ _ => points_pure ht
    split
    · exact hright _
    · split
      · exact hright _
      · exact points_failAt_bind ht

theorem points_expression (h : PointsExpr Q primary) :
    PointsExpr Q (expression primary context) := by
  have hcondition : ∀ (t : Token) (e : Expr), Q e.offset →
      Points Q (fun _ => True) (checkCondition t e) := fun _ _ => points_checkCondition
  have hconnective : ∀ (t : Token) (e : Expr), Q t.offset → Q e.offset →
      Points Q (fun _ => True) (checkConnective context t e) := fun _ _ => points_checkConnective
  have hcomparison : PointsExpr Q (comparison primary context) := points_comparison h
  refine points_chainLeft hconnective hcondition (points_chainLeft hconnective hcondition ?_)
  refine points_peek.bind fun t ht => ?_
  split
  · refine points_advance.bind fun _ _ => ?_
    split
    · exact hcomparison.bind fun e he => (points_checkCondition he).bind fun _ _ => points_pure ht
    · exact points_failAt_bind ht
  · exact hcomparison

end Levels

/-! ## Calls -/

section Calls

variable {inside : Context → Parse Expr} {callee : Token} {arity : Arity}

section

variable (h : ∀ c, PointsExpr Q (inside c))

include h

theorem points_moreArguments (word : Bytes) (count : Nat)
    (context : Context) (done : List Expr) :
    Points Q (fun _ => True) (moreArguments inside word arity count context done) := by
  induction count generalizing context done with
  | zero => exact points_pure trivial
  | succ count ih =>
    have hargument : PointsExpr Q (argument inside word context) := by
      refine (h context).bind fun e he => ?_
      cases context <;> dsimp only <;> split <;>
        first | exact points_pure he | exact points_failAt_bind he
    refine hargument.bind fun e _ => points_next.bind fun t ht => ?_
    split
    · split
      · exact points_failAt ht
      · exact ih _ _
    · split
      · exact points_failAt ht
      · exact points_pure trivial
    · exact points_failAt ht

theorem points_arguments (word : Bytes) (first : Context) :
    Points Q (fun _ => True) (arguments inside word arity first) := by
  refine points_peek.bind fun t ht => ?_
  split
  · refine points_advance.bind fun _ _ => ?_
    split
    · exact points_failAt_bind ht
    · exact points_pure trivial
  · exact points_remaining.bind fun _ _ => points_moreArguments h word _ _ _

theorem points_soleArgument (word : Bytes) (hoffset : Q offset) :
    Points Q (fun _ => True) (soleArgument inside word offset) :=
  (points_arguments h word .value).bind fun es _ => by
    split
    · exact points_pure trivial
    · exact points_failAt hoffset

theorem points_callForm (ht : Q callee.offset) : PointsExpr Q (callForm inside callee) := by
  have hname {f : Bytes → Parse Expr} (k : TokenKind) (hf : ∀ n, PointsExpr Q (f n)) :
      PointsExpr Q (do
        let n ← name
        expect k
        f n) :=
    points_name.bind fun n _ => (points_expect k).bind fun _ _ => hf n
  have hsole := points_soleArgument h callee.text ht
  unfold callForm
  split
  · exact hsole.bind fun _ _ => points_pure ht
  · split
    · next form _ =>
      cases form with
      | min | max => exact (points_arguments h _ _).bind fun _ _ => points_pure ht
      | choice =>
        refine (points_arguments h _ _).bind fun es _ => ?_
        split
        · exact points_pure ht
        · exact points_failAt ht
      | fetch | solving => exact hname _ fun _ => points_pure ht
      | assign | item => exact hname _ fun _ => hsole.bind fun _ _ => points_pure ht
      | sigma =>
        refine hname _ fun n => (points_arguments h _ _).bind fun es _ => ?_
        split
        · exact points_pure ht
        · exact points_failAt ht
    · exact (points_arguments h _ _).bind fun _ _ => points_pure ht

theorem points_named (ht : Q t.offset) : PointsExpr Q (named inside t) := by
  refine points_peek.bind fun behind _ => ?_
  split
  · exact points_advance.bind fun _ _ => points_callForm h ht
  · exact points_advance.bind fun _ _ => (h .value).bind fun _ he =>
      (points_checkNumber he).bind fun _ _ => (points_expect _).bind fun _ _ => points_pure ht
  · exact points_pure ht

end

end Calls

/-! ## Equations -/

theorem points_literal (ht : Q t.offset) : PointsExpr Q (literal t) := by
  unfold literal
  split
  · exact points_pure ht
  · exact fun _ _ => ht

theorem points_primary (depth : Nat) (context : Context) :
    PointsExpr Q (primary depth context) := by
  induction depth generalizing context with
  | zero => exact points_peek.bind fun _ ht => points_failAt ht
  | succ depth ih =>
    have hinside (c : Context) : PointsExpr Q (expression (primary depth c) c) :=
      points_expression (ih c)
    refine points_next.bind fun t ht => ?_
    split
    · exact points_literal ht
    · exact (hinside _).bind fun _ _ => (points_expect _).bind fun _ _ => points_pure ht
    · split
      · exact (points_checkLength ht).bind fun _ _ => points_named hinside ht
      · exact points_failAt ht
    · exact points_failAt ht
    · exact points_failAt ht

theorem points_tag : Points Q (fun _ => True) tag := by
  have hget : Points Q (fun s => s.Marked Q) (get : Parse TokenStream) := fun _ hs => ⟨hs, hs⟩
  refine hget.bind fun s hs => ?_
  split
  · next t colon more htokens =>
    have ht : Q t.offset := hs.tokens t (htokens ▸ List.mem_cons_self)
    split
    · exact (points_checkLength ht).bind fun _ _ => points_advance.bind fun _ _ =>
        points_advance.bind fun _ _ => points_pure trivial
    · exact points_pure trivial
  · exact points_pure trivial

theorem points_equation : Points Q (fun _ => True) equation := by
  refine points_tag.bind fun tag? _ => points_remaining.bind fun _ _ =>
    (points_expression (points_primary _ _)).bind fun e _ => points_next.bind fun t ht => ?_
  split <;> dsimp only <;> split
  · exact points_pure trivial
  · exact points_failAt_bind ht
  · exact points_pure trivial
  · exact points_failAt_bind ht

end Parse

open TokenStream

theorem offset_of_parse {compat : Bool} {text : Bytes} {e : ParseError}
    (h : Expr.parse compat text = .error e) :
    (∃ t ∈ (ofText compat text).tokens, e.offset = t.offset) ∨
      e.offset = (ofText compat text).stop := by
  have hpoints := Parse.points_equation (ofText compat text)
    (Q := fun o => (∃ t ∈ (ofText compat text).tokens, o = t.offset) ∨
      o = (ofText compat text).stop) ⟨fun t ht => .inl ⟨t, ht, rfl⟩, .inr rfl⟩
  rw [Expr.parse] at h
  cases hrun : Parse.equation (ofText compat text) with
  | ok x => simp [hrun, Except.map] at h
  | error e' =>
    obtain rfl : e' = e := by simpa [hrun, Except.map] using h
    simpa [hrun] using hpoints

/-- Faults are numbered by the lines that do not parse. -/
theorem exists_line_of_fault {file : Bytes} {compat : Bool} {lines : List Bytes} {n : Nat}
    {f : LineFault} (h : f ∈ (readEquationLines file compat n lines).faults) :
    ∃ i line, f.line = n + i ∧ lines[i]? = some line ∧
      Expr.parse compat line = .error f.cause := by
  induction lines generalizing n with
  | nil => simp [readEquationLines] at h
  | cons line lines ih =>
    have hmore (h : f ∈ (readEquationLines file compat (n + 1) lines).faults) :
        ∃ i line', f.line = n + i ∧ (line :: lines)[i]? = some line' ∧
          Expr.parse compat line' = .error f.cause := by
      obtain ⟨i, line', hline, hget, hparse⟩ := ih h
      exact ⟨i + 1, line', by omega, hget, hparse⟩
    rw [readEquationLines] at h
    split at h
    · exact hmore h
    · split at h
      · exact hmore h
      · next e hparse =>
        rcases List.mem_cons.1 h with rfl | h
        · refine ⟨0, line, rfl, rfl, ?_⟩
          rw [Equation.parse] at hparse
          cases hexpr : Expr.parse compat line with
          | ok t => simp [hexpr, bind, Except.bind, pure, Except.pure] at hparse
          | error e' => simpa [hexpr, bind, Except.bind] using hparse
        · exact hmore h

/-- An error is at a token, at the first malformed number or at the end, and never behind the
    malformed number. So every fault of a file is in a column of its line, or behind the last. -/
theorem parse_error_at_token (compat : Bool) :
    (∀ (text : Bytes) (e : ParseError), Expr.parse compat text = .error e →
      ((∃ t ∈ (ofText compat text).tokens, e.offset = t.offset) ∨
        (∃ bad, (ofText compat text).ending = .error bad ∧ e.offset = bad.offset) ∨
        e.offset = text.length) ∧
      ∀ bad, (ofText compat text).ending = .error bad → e.offset ≤ bad.offset) ∧
    ∀ (file text : Bytes), ∀ f ∈ (readEquations file text compat).faults,
      ∃ line, (linesOf text)[f.line - 1]? = some line ∧ 1 ≤ f.line ∧ 1 ≤ f.column ∧
        f.column ≤ line.length + 1 := by
  have hbound {text : Bytes} {e : ParseError} (h : Expr.parse compat text = .error e) :
      e.offset ≤ (ofText compat text).stop := by
    rcases offset_of_parse h with ⟨t, ht, he⟩ | he
    · have := ((laid_ofCursor compat 0 text).mem_tokens ht).2.2.1
      simp only [← ofText_eq] at this
      omega
    · exact Nat.le_of_eq he
  refine ⟨fun text e h => ⟨?_, fun bad hbad => ?_⟩, fun file text f hf => ?_⟩
  · have hstands := (laid_ofCursor compat 0 text).stands
    rw [← ofText_eq] at hstands
    refine (offset_of_parse h).imp_right fun he => ?_
    rw [stop] at he
    cases hending : (ofText compat text).ending with
    | ok n =>
      simp only [hending] at he hstands
      exact .inr (by simpa [hstands] using he)
    | error bad =>
      simp only [hending] at he
      exact .inl ⟨bad, rfl, he⟩
  · have := hbound h
    rwa [stop, hbad] at this
  · obtain ⟨i, line, hi, hline, hparse⟩ := exists_line_of_fault hf
    refine ⟨line, by simpa [hi] using hline, by omega, Nat.le_add_left 1 _, ?_⟩
    have hlen := (laid_ofCursor compat 0 line).bounds.2.1
    have := hbound hparse
    rw [← ofText_eq] at hlen
    simp only [LineFault.column] at *
    omega

end Keystroke
