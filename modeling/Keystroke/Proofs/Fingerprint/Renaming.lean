import Keystroke.Proofs.Algebra.Leaves
import Keystroke.Proofs.Fingerprint.Behaviour

set_option autoImplicit false

/-! # Equations with the same form differ in their wording

Two equations have the same form if and only if they have the same name and one tree can be turned
into the other step by step: by moving nodes to other offsets, by putting parentheses around a part
or taking them away, by spelling a number in another way, by writing an element of a matrix with
brackets or as a call, and by giving the index of a sum another name (`Equation.form_eq_iff`).

What a renaming does, and when it may be done, is said of the references of an expression: the names
in it, each with the indices of the sums between it and the root. -/

namespace Keystroke

open List NameRef

namespace Expr

/-! ## References -/

mutual

/-- The names that an expression refers to, each with the indices of the sums in whose bodies it
    stands, innermost first. -/
def references : Expr → List (List Bytes × Bytes)
  | literal _ _ _ => []
  | var _ name | fetch _ name | solving _ name => [([], name)]
  | unary _ _ e | group _ e | apply _ _ e | tagged _ _ e => e.references
  | assign _ name e | item _ name e _ => ([], name) :: e.references
  | binary _ _ l r => l.references ++ r.references
  | extremum _ _ es | call _ _ es => referencesAll es
  | conditional _ c y n => c.references ++ y.references ++ n.references
  | sigma _ index a b s e =>
    a.references ++ b.references ++ s.references ++
      e.references.map fun r => (r.1 ++ [index], r.2)

/-- The references of several expressions in turn. -/
def referencesAll : List Expr → List (List Bytes × Bytes)
  | [] => []
  | e :: es => e.references ++ referencesAll es

end

mutual

/-- The expression with other names, chosen by the indices around a reference and its name. The
    indices themselves are kept. -/
def relabel (f : List Bytes → Bytes → Bytes) : Expr → Expr
  | literal p value text => literal p value text
  | var p name => var p (f [] name)
  | unary p op e => unary p op (e.relabel f)
  | group p e => group p (e.relabel f)
  | binary p op l r => binary p op (l.relabel f) (r.relabel f)
  | apply p fn e => apply p fn (e.relabel f)
  | extremum p greatest es => extremum p greatest (relabelAll f es)
  | call p name es => call p name (relabelAll f es)
  | conditional p c y n => conditional p (c.relabel f) (y.relabel f) (n.relabel f)
  | sigma p index a b s e =>
    sigma p index (a.relabel f) (b.relabel f) (s.relabel f)
      (e.relabel fun around => f (around ++ [index]))
  | fetch p name => fetch p (f [] name)
  | assign p name e => assign p (f [] name) (e.relabel f)
  | solving p name => solving p (f [] name)
  | item p name e bracket => item p (f [] name) (e.relabel f) bracket
  | tagged p name e => tagged p name (e.relabel f)

/-- Several expressions with other names. -/
def relabelAll (f : List Bytes → Bytes → Bytes) : List Expr → List Expr
  | [] => []
  | e :: es => e.relabel f :: relabelAll f es

end

/-- The expression with `j` for `i`, except where an inner sum has the index `i`. -/
def rename (i j : Bytes) (e : Expr) : Expr :=
  e.relabel fun around name => if name = i && !around.contains i then j else name

/-- The expression refers to the name from outside. -/
def Mentions (name : Bytes) (e : Expr) : Prop := ∃ r ∈ e.references, r.2 = name ∧ name ∉ r.1

/-- A reference to `i` from outside stands in the body of a sum with the index `j`. -/
def Captures (i j : Bytes) (e : Expr) : Prop :=
  ∃ r ∈ e.references, r.2 = i ∧ i ∉ r.1 ∧ j ∈ r.1

/-! ## Variants -/

mutual

/-- One tree can be turned into the other by changes of the wording, which can be made at any place
    and taken back. All nodes may move to other offsets. -/
inductive Variant : Expr → Expr → Prop
  | symm {e e' : Expr} (h : Variant e e') : Variant e' e
  | trans {e e' e'' : Expr} (h : Variant e e') (h' : Variant e' e'') : Variant e e''
  /-- Parentheses around an expression. -/
  | enclose (p : Nat) (e : Expr) : Variant e (group p e)
  /-- Another name for the index of a sum and for all that refers to it. Nothing in the body may
      already have that name, nor may an inner sum of that index get in between. -/
  | index (p : Nat) {i j : Bytes} (a b s : Expr) {e : Expr} (hnew : ¬ e.Mentions j)
      (hclear : ¬ e.Captures i j) : Variant (sigma p i a b s e) (sigma p j a b s (e.rename i j))
  /-- Another spelling of a number. -/
  | literal (p q : Nat) (value : Float) (text text' : Bytes) :
    Variant (literal p value text) (literal q value text')
  /-- Brackets for a call or a call for brackets. -/
  | item (p q : Nat) (name : Bytes) (b b' : Bool) {e e' : Expr} (h : Variant e e') :
    Variant (item p name e b) (item q name e' b')
  | var (p q : Nat) (name : Bytes) : Variant (var p name) (var q name)
  | fetch (p q : Nat) (name : Bytes) : Variant (fetch p name) (fetch q name)
  | solving (p q : Nat) (name : Bytes) : Variant (solving p name) (solving q name)
  | unary (p q : Nat) (op : UnaryOp) {e e' : Expr} (h : Variant e e') :
    Variant (unary p op e) (unary q op e')
  | binary (p q : Nat) (op : BinaryOp) {l l' r r' : Expr} (hl : Variant l l')
      (hr : Variant r r') : Variant (binary p op l r) (binary q op l' r')
  | apply (p q : Nat) (fn : Function) {e e' : Expr} (h : Variant e e') :
    Variant (apply p fn e) (apply q fn e')
  | extremum (p q : Nat) (greatest : Bool) {es es' : List Expr} (h : VariantAll es es') :
    Variant (extremum p greatest es) (extremum q greatest es')
  | call (p q : Nat) (name : Bytes) {es es' : List Expr} (h : VariantAll es es') :
    Variant (call p name es) (call q name es')
  | conditional (p q : Nat) {c c' y y' n n' : Expr} (hc : Variant c c') (hy : Variant y y')
      (hn : Variant n n') : Variant (conditional p c y n) (conditional q c' y' n')
  | sigma (p q : Nat) (index : Bytes) {a a' b b' s s' e e' : Expr} (ha : Variant a a')
      (hb : Variant b b') (hs : Variant s s') (he : Variant e e') :
    Variant (sigma p index a b s e) (sigma q index a' b' s' e')
  | assign (p q : Nat) (name : Bytes) {e e' : Expr} (h : Variant e e') :
    Variant (assign p name e) (assign q name e')

/-- The same for arguments, one by one. -/
inductive VariantAll : List Expr → List Expr → Prop
  | nil : VariantAll [] []
  | cons {e e' : Expr} {es es' : List Expr} (h : Variant e e') (hs : VariantAll es es') :
    VariantAll (e :: es) (e' :: es')

end

/-! ## Relabelling -/

variable {i j : Bytes} {e e' : Expr}

theorem referencesAll_eq (es : List Expr) : referencesAll es = es.flatMap references := by
  induction es with
  | nil => rfl
  | cons e es ih => rw [referencesAll, flatMap_cons, ih]

theorem relabelAll_eq (f : List Bytes → Bytes → Bytes) (es : List Expr) :
    relabelAll f es = es.map (relabel f) := by
  induction es with
  | nil => rfl
  | cons e es ih => rw [relabelAll, map_cons, ih]

theorem relabel_id (e : Expr) : e.relabel (fun _ name => name) = e := by
  induction e using parts_induction with
  | var p n => rfl
  | node e _ ih =>
    cases e with
    | extremum p greatest es | call p name es =>
      have hes : es.map (relabel fun _ name => name) = es := (map_congr_left ih).trans es.map_id'
      rw [relabel, relabelAll_eq, hes]
    | _ => simp_all [relabel, parts]

theorem relabel_relabel (e : Expr) (f g : List Bytes → Bytes → Bytes) :
    (e.relabel f).relabel g = e.relabel fun around name => g around (f around name) := by
  induction e using parts_induction generalizing f g with
  | var p n => rfl
  | node e _ ih => cases e <;> simp_all [relabel, relabelAll_eq, parts]

theorem references_relabel (e : Expr) (f : List Bytes → Bytes → Bytes) :
    (e.relabel f).references = e.references.map fun r => (r.1, f r.1 r.2) := by
  induction e using parts_induction generalizing f with
  | var p n => rfl
  | node e _ ih =>
    cases e with
    | extremum p greatest es | call p name es =>
      simp only [relabel, references, referencesAll_eq, relabelAll_eq, flatMap_map, map_flatMap]
      exact flatMap_congr fun c hc => ih c hc f
    | _ => simp_all [relabel, references, parts, Function.comp_def]

mutual

theorem formBelow_relabel (e : Expr) {f : List Bytes → Bytes → Bytes} {is is' : List Bytes}
    (h : ∀ r ∈ e.references,
      resolve (r.1 ++ is) (f r.1 r.2) = resolve (r.1 ++ is') r.2) :
    (e.relabel f).formBelow is = e.formBelow is' := by
  cases e with
  | literal => rfl
  | var p name | fetch p name | solving p name =>
    have hname : resolve is (f [] name) = resolve is' name := h ([], name) mem_cons_self
    rw [relabel, formBelow, formBelow, hname]
  | unary p op e | group p e | apply p fn e | tagged p name e =>
    rw [relabel, formBelow, formBelow, formBelow_relabel e h]
  | assign p name e | item p name e bracket =>
    rw [references, forall_mem_cons] at h
    have hname : resolve is (f [] name) = resolve is' name := h.1
    rw [relabel, formBelow, formBelow, formBelow_relabel e h.2, hname]
  | binary p op l r =>
    rw [references, forall_mem_append] at h
    rw [relabel, formBelow, formBelow, formBelow_relabel l h.1, formBelow_relabel r h.2]
  | extremum p greatest es | call p name es =>
    rw [relabel, formBelow, formBelow, formBelowAll_relabelAll es h]
  | conditional p c y n =>
    simp only [references, forall_mem_append] at h
    rw [relabel, formBelow, formBelow, formBelow_relabel c h.1.1, formBelow_relabel y h.1.2,
      formBelow_relabel n h.2]
  | sigma p index a b s e =>
    simp only [references, forall_mem_append, forall_mem_map] at h
    obtain ⟨⟨⟨ha, hb⟩, hs⟩, he⟩ := h
    simp only [append_assoc, singleton_append] at he
    rw [relabel, formBelow, formBelow, formBelow_relabel a ha, formBelow_relabel b hb,
      formBelow_relabel s hs, formBelow_relabel e he]

theorem formBelowAll_relabelAll (es : List Expr) {f : List Bytes → Bytes → Bytes}
    {is is' : List Bytes}
    (h : ∀ r ∈ referencesAll es,
      resolve (r.1 ++ is) (f r.1 r.2) = resolve (r.1 ++ is') r.2) :
    formBelowAll is (relabelAll f es) = formBelowAll is' es := by
  cases es with
  | nil => rfl
  | cons e es =>
    rw [referencesAll, forall_mem_append] at h
    rw [relabelAll, formBelowAll, formBelowAll, formBelow_relabel e h.1,
      formBelowAll_relabelAll es h.2]

end

theorem resolve_rename {name : Bytes} {around is : List Bytes} (hnew : ¬ (name = j ∧ j ∉ around))
    (hclear : ¬ (name = i ∧ i ∉ around ∧ j ∈ around)) :
    resolve (around ++ j :: is) (if name = i && !around.contains i then j else name) =
      resolve (around ++ i :: is) name := by
  have hinner {n : Bytes} (hn : n ∉ around) : around.findIdx? (· == n) = none := by
    simp only [findIdx?_eq_none_iff, beq_eq_false_iff_ne]
    exact fun x hx hxn => hn (hxn ▸ hx)
  -- an inner index of that name is found first on both sides
  by_cases hname : name ∈ around
  · have hkept : ¬ (name = i && !around.contains i) := by
      simpa using fun h : name = i => h ▸ hname
    obtain ⟨k, hk⟩ : ∃ k, around.findIdx? (· == name) = some k := by
      rw [← Option.isSome_iff_exists, findIdx?_isSome, any_eq_true]
      exact ⟨name, hname, by simp⟩
    rw [if_neg hkept, resolve, resolve, findIdx?_append, findIdx?_append,
      hk, Option.some_or, Option.some_or]
  · by_cases hi : name = i
    · subst hi
      have hj : j ∉ around := fun h => hclear ⟨rfl, hname, h⟩
      simp [resolve, findIdx?_append, hname, hinner hj, hinner hname, findIdx?_cons]
    · have hj : j ≠ name := fun h => hnew ⟨h.symm, h ▸ hname⟩
      simp [resolve, findIdx?_append, hinner hname, findIdx?_cons, hi, Ne.symm hi, hj]

theorem formBelow_rename {is : List Bytes} (hnew : ¬ e.Mentions j) (hclear : ¬ e.Captures i j) :
    (e.rename i j).formBelow (j :: is) = e.formBelow (i :: is) :=
  formBelow_relabel e fun r hr =>
    resolve_rename (fun h => hnew ⟨r, hr, h⟩) (fun h => hclear ⟨r, hr, h⟩)

mutual

theorem Variant.formBelow_eq (is : List Bytes) :
    ∀ {e e' : Expr}, Variant e e' → e.formBelow is = e'.formBelow is
  | _, _, .symm h => (h.formBelow_eq is).symm
  | _, _, .trans h h' => (h.formBelow_eq is).trans (h'.formBelow_eq is)
  | _, _, .index p a b s hnew hclear => by
    rw [formBelow, formBelow, formBelow_rename hnew hclear]
  | _, _, .enclose .. | _, _, .literal .. | _, _, .var .. | _, _, .fetch ..
  | _, _, .solving .. => by simp only [formBelow]
  | _, _, .unary _ _ _ h | _, _, .apply _ _ _ h | _, _, .assign _ _ _ h
  | _, _, .item _ _ _ _ _ h => by rw [formBelow, formBelow, h.formBelow_eq is]
  | _, _, .binary _ _ _ hl hr => by
    rw [formBelow, formBelow, hl.formBelow_eq is, hr.formBelow_eq is]
  | _, _, .extremum _ _ _ h | _, _, .call _ _ _ h => by
    rw [formBelow, formBelow, h.formBelowAll_eq is]
  | _, _, .conditional _ _ hc hy hn => by
    rw [formBelow, formBelow, hc.formBelow_eq is, hy.formBelow_eq is, hn.formBelow_eq is]
  | _, _, .sigma _ _ index ha hb hs he => by
    rw [formBelow, formBelow, ha.formBelow_eq is, hb.formBelow_eq is, hs.formBelow_eq is,
      he.formBelow_eq (index :: is)]

theorem VariantAll.formBelowAll_eq (is : List Bytes) :
    ∀ {es es' : List Expr}, VariantAll es es' → formBelowAll is es = formBelowAll is es'
  | _, _, .nil => rfl
  | _, _, .cons h hs => by
    rw [formBelowAll, formBelowAll, h.formBelow_eq is, hs.formBelowAll_eq is]

end

end Expr

/-! ## The tree of a form -/

/-- The name of a reference below the given indices. -/
def NameRef.nameBelow (indices : List Bytes) : NameRef → Bytes
  | free name => name
  | bound depth => indices.getD depth.toNat []

/-- Indices that are not too deep to be counted are found again. -/
theorem NameRef.nameBelow_resolve {indices : List Bytes} (h : indices.length ≤ 65536)
    (name : Bytes) : (resolve indices name).nameBelow indices = name := by
  unfold resolve
  split
  · next depth hdepth =>
    obtain ⟨hlt, hname, -⟩ := findIdx?_eq_some_iff_getElem.1 hdepth
    have hword : depth.toUInt16.toNat = depth := by
      rw [Nat.toUInt16_eq, UInt16.toNat_ofNat']
      omega
    rw [nameBelow, hword, getD_eq_getElem _ _ hlt]
    exact eq_of_beq hname
  · rfl

namespace Form

mutual

/-- A tree of the form. A sum gets an index of `width` bytes, and the sums in its body get longer
    ones. -/
def tree (width : Nat) (indices : List Bytes) : Form → Expr
  | number value => .literal 0 value []
  | name target => .var 0 (target.nameBelow indices)
  | unary op e => .unary 0 op (e.tree width indices)
  | binary op l r => .binary 0 op (l.tree width indices) (r.tree width indices)
  | apply fn e => .apply 0 fn (e.tree width indices)
  | extremum greatest es => .extremum 0 greatest (treeAll width indices es)
  | call n es => .call 0 n (treeAll width indices es)
  | conditional c y n =>
    .conditional 0 (c.tree width indices) (y.tree width indices) (n.tree width indices)
  | sigma a b s e =>
    .sigma 0 (replicate width 0) (a.tree width indices) (b.tree width indices)
      (s.tree width indices) (e.tree (width + 1) (replicate width 0 :: indices))
  | fetch target => .fetch 0 (target.nameBelow indices)
  | assign target e => .assign 0 (target.nameBelow indices) (e.tree width indices)
  | solving target => .solving 0 (target.nameBelow indices)
  | item target e => .item 0 (target.nameBelow indices) (e.tree width indices) false
  | equation n e => .tagged 0 n (e.tree width indices)

/-- The trees of several forms. -/
def treeAll (width : Nat) (indices : List Bytes) : List Form → List Expr
  | [] => []
  | e :: es => e.tree width indices :: treeAll width indices es

end

end Form

namespace Expr

/-- The name of the reference and the indices around it have fewer bytes. -/
def Narrow (width : Nat) (r : List Bytes × Bytes) : Prop := ∀ n ∈ r.2 :: r.1, n.length < width

variable {compat : Bool} {e e' : Expr}

/-- An index can be given the name of that many bytes, which leaves the longer ones unused. -/
theorem variant_index (p : Nat) (i : Bytes) (a b s : Expr) {width : Nat}
    (h : ∀ r ∈ e.references, Narrow width r) :
    let j := replicate width 0
    Variant (sigma p i a b s e) (sigma p j a b s (e.rename i j)) ∧
      (∀ is, (e.rename i j).formBelow (j :: is) = e.formBelow (i :: is)) ∧
      ∀ r ∈ (e.rename i j).references, Narrow (width + 1) r := by
  intro j
  have hj (r : List Bytes × Bytes) (hr : r ∈ e.references) : j ∉ r.2 :: r.1 := fun hmem => by
    simpa [j] using h r hr j hmem
  have hnew : ¬ e.Mentions j := fun ⟨r, hr, hname, _⟩ => hj r hr (by simp [hname])
  have hclear : ¬ e.Captures i j := fun ⟨r, hr, _, _, hmem⟩ => hj r hr (by simp [hmem])
  refine ⟨.index p a b s hnew hclear, fun is => formBelow_rename hnew hclear, ?_⟩
  rw [rename, references_relabel, forall_mem_map]
  intro r hr n hn
  rcases mem_cons.1 hn with rfl | hn
  · dsimp only
    split
    · simp [j]
    · exact Nat.lt_succ_of_lt (h r hr _ mem_cons_self)
  · exact Nat.lt_succ_of_lt (h r hr n (mem_cons_of_mem _ hn))

theorem Fits.operand {rank : Rank} {ctx : Context} {p : Nat} {op : UnaryOp}
    (h : (unary p op e).Fits compat rank ctx) : ∃ rank, e.Fits compat rank ctx := by
  cases op with
  | not => exact ⟨_, h.2.2.2⟩
  | neg | pos => obtain ⟨-, ⟨-, he⟩ | ⟨-, he⟩⟩ := h <;> exact ⟨_, he⟩

mutual

/-- An expression can be turned into the tree of its form. The names in it may have been changed
    before: in the body of a sum the index is renamed first, and what is left is no part of the
    expression itself. -/
theorem variant_tree (e : Expr) {rank : Rank} {ctx : Context} (hfits : e.Fits compat rank ctx)
    {f : List Bytes → Bytes → Bytes} {width : Nat} {is : List Bytes}
    (hdepth : is.length + e.sumDepth ≤ 65536)
    (hnarrow : ∀ r ∈ (e.relabel f).references, Narrow width r) :
    Variant (e.relabel f) (((e.relabel f).formBelow is).tree width is) := by
  have hname (n : Bytes) : (resolve is n).nameBelow is = n := nameBelow_resolve (by omega) n
  cases e with
  | literal p value text => exact .literal ..
  | var p n => simpa only [relabel, formBelow, Form.tree, hname] using .var ..
  | fetch p n => simpa only [relabel, formBelow, Form.tree, hname] using .fetch ..
  | solving p n => simpa only [relabel, formBelow, Form.tree, hname] using .solving ..
  | group p e => exact (Variant.enclose p _).symm.trans (variant_tree e hfits hdepth hnarrow)
  | unary p op e =>
    obtain ⟨_, he⟩ := hfits.operand
    exact .unary _ _ _ (variant_tree e he hdepth hnarrow)
  | apply p fn e => exact .apply _ _ _ (variant_tree e hfits.2 hdepth hnarrow)
  | assign p n e =>
    rw [relabel, references, forall_mem_cons] at hnarrow
    rw [relabel, formBelow, Form.tree, hname]
    exact .assign _ _ _ (variant_tree e hfits.2.2 hdepth hnarrow.2)
  | item p n e bracket =>
    rw [relabel, references, forall_mem_cons] at hnarrow
    rw [relabel, formBelow, Form.tree, hname]
    exact .item _ _ _ _ _ (variant_tree e hfits.2.2.2 hdepth hnarrow.2)
  | binary p op l r =>
    rw [relabel, references, forall_mem_append] at hnarrow
    rw [sumDepth] at hdepth
    obtain ⟨-, -, -, -, hl, hr⟩ := hfits
    exact .binary _ _ _ (variant_tree l hl (by omega) hnarrow.1)
      (variant_tree r hr (by omega) hnarrow.2)
  | extremum p greatest es =>
    exact .extremum _ _ _ (variantAll_treeAll es hfits.2 hdepth hnarrow)
  | call p n es => exact .call _ _ _ (variantAll_treeAll es hfits.2.2 hdepth hnarrow)
  | conditional p c y n =>
    simp only [relabel, references, forall_mem_append] at hnarrow
    rw [sumDepth] at hdepth
    obtain ⟨⟨-, hc⟩, ⟨-, hy⟩, -, hn⟩ := hfits
    exact .conditional _ _ (variant_tree c hc (by omega) hnarrow.1.1)
      (variant_tree y hy (by omega) hnarrow.1.2) (variant_tree n hn (by omega) hnarrow.2)
  | sigma p i a b s e =>
    simp only [relabel, references, forall_mem_append, forall_mem_map] at hnarrow
    obtain ⟨⟨⟨hanarrow, hbnarrow⟩, hsnarrow⟩, henarrow⟩ := hnarrow
    rw [sumDepth] at hdepth
    obtain ⟨-, ⟨-, ha⟩, ⟨-, hb⟩, ⟨-, hs⟩, -, he⟩ := hfits
    have hinner (r) (hr) : Narrow width r := fun n hn =>
      henarrow r hr n ((mem_cons.1 hn).elim (by simp +contextual) (by simp +contextual))
    -- the body gets its new index first, and is turned into a tree below that index
    obtain ⟨hindex, hform, hrenamed⟩ :=
      variant_index p i (a.relabel f) (b.relabel f) (s.relabel f) hinner
    rw [rename, relabel_relabel] at hindex hform hrenamed
    have hlength : (replicate width 0 :: is).length + e.sumDepth ≤ 65536 := by
      rw [length_cons]
      omega
    have htree := variant_tree e he hlength hrenamed
    rw [hform] at htree
    exact hindex.trans (.sigma _ _ _ (variant_tree a ha (by omega) hanarrow)
      (variant_tree b hb (by omega) hbnarrow) (variant_tree s hs (by omega) hsnarrow) htree)
  | tagged => exact hfits.elim

theorem variantAll_treeAll (es : List Expr) (hfits : FitsAll compat es)
    {f : List Bytes → Bytes → Bytes} {width : Nat} {is : List Bytes}
    (hdepth : is.length + sumDepthAll es ≤ 65536)
    (hnarrow : ∀ r ∈ referencesAll (relabelAll f es), Narrow width r) :
    VariantAll (relabelAll f es)
      (Form.treeAll width is (formBelowAll is (relabelAll f es))) := by
  cases es with
  | nil => exact .nil
  | cons e es =>
    rw [relabelAll, referencesAll, forall_mem_append] at hnarrow
    rw [sumDepthAll] at hdepth
    exact .cons (variant_tree e hfits.1.2 (by omega) hnarrow.1)
      (variantAll_treeAll es hfits.2 (by omega) hnarrow.2)

end

theorem exists_narrow (rs : List (List Bytes × Bytes)) : ∃ width, ∀ r ∈ rs, Narrow width r := by
  let names := rs.flatMap fun r => r.2 :: r.1
  refine ⟨(names.map length).sum + 1, fun r hr n hn => Nat.lt_succ_of_le ?_⟩
  exact le_sum_of_mem (mem_map_of_mem (mem_flatMap.2 ⟨r, hr, hn⟩))

/-- Trees of some shape have the same form if and only if they are variants of each other. -/
theorem formBelow_eq_iff_variant {compat' : Bool} {rank rank' : Rank} {ctx ctx' : Context}
    (hfits : e.Fits compat rank ctx) (hfits' : e'.Fits compat' rank' ctx')
    (hdepth : e.sumDepth ≤ 65536) (hdepth' : e'.sumDepth ≤ 65536) :
    e.formBelow [] = e'.formBelow [] ↔ Variant e e' := by
  refine ⟨fun hform => ?_, fun hvariant => hvariant.formBelow_eq []⟩
  obtain ⟨width, hnarrow⟩ := exists_narrow (e.references ++ e'.references)
  have htree {e : Expr} {compat : Bool} {rank : Rank} {ctx : Context}
      (hfits : e.Fits compat rank ctx) (hdepth : e.sumDepth ≤ 65536)
      (hnarrow : ∀ r ∈ e.references, Narrow width r) :
      Variant e ((e.formBelow []).tree width []) := by
    have hlength : ([] : List Bytes).length + e.sumDepth ≤ 65536 := by simpa using hdepth
    have htree := variant_tree e hfits hlength (by rwa [relabel_id])
    rwa [relabel_id] at htree
  rw [forall_mem_append] at hnarrow
  refine (htree hfits hdepth hnarrow.1).trans ?_
  rw [hform]
  exact (htree hfits' hdepth' hnarrow.2).symm

end Expr

/-- Equations that were read, with sums nested at most 65536 deep, have the same form if and only if
    they have the same name and differ in the wording of their trees. -/
theorem Equation.form_eq_iff {compat₁ compat₂ : Bool} {source₁ source₂ : Bytes} {e₁ e₂ : Equation}
    (h₁ : parse compat₁ source₁ = .ok e₁) (h₂ : parse compat₂ source₂ = .ok e₂)
    (hdepth₁ : e₁.tree.sumDepth ≤ 65536) (hdepth₂ : e₂.tree.sumDepth ≤ 65536) :
    e₁.form = e₂.form ↔ e₁.name = e₂.name ∧ Expr.Variant e₁.tree e₂.tree := by
  obtain ⟨hfits₁, -⟩ := fits_of_parse h₁
  obtain ⟨hfits₂, -⟩ := fits_of_parse h₂
  rw [form, form, Form.equation.injEq, hfits₁.form_eq, hfits₂.form_eq,
    Expr.formBelow_eq_iff_variant hfits₁ hfits₂ hdepth₁ hdepth₂]

/-- A sum whose index hides that of the sum around it, and the same with other indices, with a call
    for the brackets and with more parentheses. Where the factor is the outer index, it is another
    equation. -/
theorem Equation.form_eq_iff_nested_sums :
    ∃ e₁ e₂ e₃, parse false (utf8 "T:SIGMA(I:1:N:1:SIGMA(I:I:N:1:I*A[I])+I)") = .ok e₁ ∧
      parse false (utf8 "T:SIGMA(K:1.0:N:1:(SIGMA(J:K:N:1:J*ITEM(A:J))+K))") = .ok e₂ ∧
      parse false (utf8 "T:SIGMA(K:1:N:1:SIGMA(J:K:N:1:K*A[J])+K)") = .ok e₃ ∧
      e₁.name = e₂.name ∧ Expr.Variant e₁.tree e₂.tree ∧ ¬ Expr.Variant e₁.tree e₃.tree := by
  let hidden := utf8 "T:SIGMA(I:1:N:1:SIGMA(I:I:N:1:I*A[I])+I)"
  let reworded := utf8 "T:SIGMA(K:1.0:N:1:(SIGMA(J:K:N:1:J*ITEM(A:J))+K))"
  let other := utf8 "T:SIGMA(K:1:N:1:SIGMA(J:K:N:1:K*A[J])+K)"
  let facts (e₁ e₂ e₃ : Equation) : Bool :=
    e₁.form.serialize = e₂.form.serialize ∧ e₁.form.serialize ≠ e₃.form.serialize ∧
      e₁.name = e₃.name ∧ ∀ e ∈ [e₁, e₂, e₃],
        e.tree.sumDepth ≤ 65536 ∧ e.tree.codeSize .standard < 2147483648
  have hread {s : Bytes} {p : Equation → Bool} (h : (parse false s).toOption.any p = true) :
      ∃ e, parse false s = .ok e ∧ p e = true := by
    cases hparse : parse false s with
    | error => simp [hparse, Except.toOption] at h
    | ok e => exact ⟨e, rfl, by simpa [hparse, Except.toOption] using h⟩
  have hall : ((parse false hidden).toOption.any fun e₁ =>
      (parse false reworded).toOption.any fun e₂ =>
        (parse false other).toOption.any (facts e₁ e₂)) = true := by decide +kernel
  obtain ⟨e₁, h₁, hall⟩ := hread hall
  obtain ⟨e₂, h₂, hall⟩ := hread hall
  obtain ⟨e₃, h₃, hall⟩ := hread hall
  obtain ⟨hsame, hother, hname, hsmall⟩ := of_decide_eq_true hall
  simp only [forall_mem_cons] at hsmall
  obtain ⟨⟨hdepth₁, hsize₁⟩, ⟨hdepth₂, hsize₂⟩, ⟨hdepth₃, -⟩, -⟩ := hsmall
  have hform := Form.serialize_inj (exact_form h₁ hsize₁) (exact_form h₂ hsize₂) hsame
  obtain ⟨hnames, hvariant⟩ := (form_eq_iff h₁ h₂ hdepth₁ hdepth₂).1 hform
  refine ⟨e₁, e₂, e₃, h₁, h₂, h₃, hnames, hvariant, fun hvariant' => hother ?_⟩
  rw [(form_eq_iff h₁ h₃ hdepth₁ hdepth₃).2 ⟨hname, hvariant'⟩]

end Keystroke
