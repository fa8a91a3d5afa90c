import Keystroke.Algebra.Printer

set_option autoImplicit false

/-! # The form that a fingerprint is taken of

Two equations that differ only in spacing, redundant parentheses, the spelling of literals and
the names of summation indices have the same form: offsets, groups and spellings are dropped, and
an index is replaced by the number of sums between it and the one that binds it. A form is written
as bytes with a tag for each node, lengths before strings and lists, and big-endian numbers. -/

namespace Keystroke

/-- What a name stands for. -/
inductive NameRef where
  | free (name : Bytes)
  /-- The index of an enclosing sum; zero is the innermost. -/
  | bound (depth : UInt16)
deriving DecidableEq, Repr

/-- An equation without what its meaning does not depend on. -/
inductive Form where
  | number (value : Float)
  | name (target : NameRef)
  | unary (op : UnaryOp) (operand : Form)
  | binary (op : BinaryOp) (left right : Form)
  | apply (fn : Function) (argument : Form)
  | extremum (greatest : Bool) (arguments : List Form)
  | call (name : Bytes) (arguments : List Form)
  | conditional (condition yes no : Form)
  | sigma (first last step body : Form)
  | fetch (target : NameRef)
  | assign (target : NameRef) (value : Form)
  | solving (target : NameRef)
  | item (target : NameRef) (index : Form)
  | equation (name : Bytes) (tree : Form)

/-! ## From expressions to forms -/

def NameRef.resolve (indices : List Bytes) (name : Bytes) : NameRef :=
  match indices.findIdx? (· == name) with
  | some depth => .bound depth.toUInt16
  | none => .free name

namespace Expr

mutual

def formBelow (indices : List Bytes) : Expr → Form
  | literal _ value _ => .number value
  | var _ name => .name (.resolve indices name)
  | group _ e => e.formBelow indices
  | tagged _ _ e => e.formBelow indices
  | unary _ op e => .unary op (e.formBelow indices)
  | binary _ op l r => .binary op (l.formBelow indices) (r.formBelow indices)
  | apply _ fn e => .apply fn (e.formBelow indices)
  | extremum _ greatest es => .extremum greatest (formBelowAll indices es)
  | call _ name es => .call name (formBelowAll indices es)
  | conditional _ c y n =>
    .conditional (c.formBelow indices) (y.formBelow indices) (n.formBelow indices)
  | sigma _ index a b s e =>
    .sigma (a.formBelow indices) (b.formBelow indices) (s.formBelow indices)
      (e.formBelow (index :: indices))
  | fetch _ name => .fetch (.resolve indices name)
  | assign _ name e => .assign (.resolve indices name) (e.formBelow indices)
  | solving _ name => .solving (.resolve indices name)
  | item _ name e _ => .item (.resolve indices name) (e.formBelow indices)

def formBelowAll (indices : List Bytes) : List Expr → List Form
  | [] => []
  | e :: es => e.formBelow indices :: formBelowAll indices es

end

/-- The form of an expression. A name in front of it is kept, so that it never has the form of an
    expression without one. -/
def form : Expr → Form
  | tagged _ name e => .equation name (e.formBelow [])
  | e => e.formBelow []

end Expr

/-! ## From forms to bytes -/

def sizedBytes (bytes : Bytes) : Bytes := bigEndian 4 bytes.length ++ bytes

/-- The version of the written form, which stands in front of it. -/
def formVersion : UInt8 := 1

namespace NameRef

def serialize : NameRef → Bytes
  | free name => 0x02 :: sizedBytes name
  | bound depth => 0x03 :: bigEndian 2 depth.toNat

end NameRef

namespace Form

/-- The bytes of a number; both zeros are written as the positive one. -/
def serializeNumber (value : Float) : Bytes :=
  bigEndian 8 (if value == 0 then 0 else value.toBits.toNat)

mutual

def serializeNode : Form → Bytes
  | number value => 0x01 :: serializeNumber value
  | name target => target.serialize
  | unary op e => 0x10 :: (sizedBytes (utf8 op.outlineName) ++ e.serializeNode)
  | binary op l r =>
    0x11 :: (sizedBytes (utf8 op.outlineName) ++ (l.serializeNode ++ r.serializeNode))
  | apply fn e => 0x12 :: (sizedBytes (utf8 fn.name) ++ e.serializeNode)
  | extremum greatest es =>
    0x13 :: (if greatest then 1 else 0) :: (bigEndian 4 es.length ++ serializeAll es)
  | call n es => 0x14 :: (sizedBytes n ++ bigEndian 4 es.length ++ serializeAll es)
  | conditional c y n => 0x20 :: (c.serializeNode ++ y.serializeNode ++ n.serializeNode)
  | sigma a b s e =>
    0x21 :: (a.serializeNode ++ b.serializeNode ++ s.serializeNode ++ e.serializeNode)
  | fetch target => 0x30 :: target.serialize
  | assign target e => 0x31 :: (target.serialize ++ e.serializeNode)
  | solving target => 0x32 :: target.serialize
  | item target e => 0x33 :: (target.serialize ++ e.serializeNode)
  | equation n e => 0x40 :: (sizedBytes n ++ e.serializeNode)

def serializeAll : List Form → Bytes
  | [] => []
  | e :: es => e.serializeNode ++ serializeAll es

end

def serialize (f : Form) : Bytes := formVersion :: f.serializeNode

end Form

end Keystroke
