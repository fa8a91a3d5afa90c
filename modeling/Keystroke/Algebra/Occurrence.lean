import Keystroke.Algebra.Expr

set_option autoImplicit false

/-! # Occurrences of a name

How often a variable occurs decides whether an equation can be solved for it in closed form: it
must occur once, and not below an operation that cannot be undone from one of its arguments. The
index of a sum hides the variable of the same name in the body. -/

namespace Keystroke

/-- How a name occurs in an expression. -/
inductive Occurrence where
  | absent
  /-- Once, in reach. -/
  | single
  /-- More than once, or out of reach. -/
  | entangled
deriving DecidableEq, Repr

namespace Occurrence

def join : Occurrence → Occurrence → Occurrence
  | absent, o => o
  | o, absent => o
  | _, _ => entangled

def hidden : Occurrence → Occurrence
  | absent => absent
  | _ => entangled

end Occurrence

namespace Expr

mutual

def occurrence (name : Bytes) : Expr → Occurrence
  | literal _ _ _ | fetch _ _ | solving _ _ => .absent
  | var _ n => if n = name then .single else .absent
  | unary _ _ e | group _ e | apply _ _ e | assign _ _ e | item _ _ e _ | tagged _ _ e =>
    e.occurrence name
  | binary _ _ l r => (l.occurrence name).join (r.occurrence name)
  | extremum _ _ es | call _ _ es => (occurrenceAll name es).hidden
  | conditional _ c y n =>
    ((c.occurrence name).join (y.occurrence name)).join (n.occurrence name)
  | sigma _ index a b s e =>
    (((a.occurrence name).join (b.occurrence name)).join (s.occurrence name)).join
      (if index = name then .absent else e.occurrence name)

def occurrenceAll (name : Bytes) : List Expr → Occurrence
  | [] => .absent
  | e :: es => (e.occurrence name).join (occurrenceAll name es)

end

mutual

/-- The variables that occur free, in the order of the text and with repetitions. -/
def freeNames (bound : List Bytes) : Expr → List Bytes
  | literal _ _ _ | fetch _ _ | solving _ _ => []
  | var _ n => if n ∈ bound then [] else [n]
  | unary _ _ e | group _ e | apply _ _ e | assign _ _ e | item _ _ e _ | tagged _ _ e =>
    e.freeNames bound
  | binary _ _ l r => l.freeNames bound ++ r.freeNames bound
  | extremum _ _ es | call _ _ es => freeNamesAll bound es
  | conditional _ c y n => c.freeNames bound ++ y.freeNames bound ++ n.freeNames bound
  | sigma _ index a b s e =>
    a.freeNames bound ++ b.freeNames bound ++ s.freeNames bound ++ e.freeNames (index :: bound)

def freeNamesAll (bound : List Bytes) : List Expr → List Bytes
  | [] => []
  | e :: es => e.freeNames bound ++ freeNamesAll bound es

end

/-- A list without the later copies of its elements. -/
def firstCopies (seen : List Bytes) : List Bytes → List Bytes
  | [] => []
  | n :: ns => if n ∈ seen then firstCopies seen ns else n :: firstCopies (n :: seen) ns

def vars (e : Expr) : List Bytes := firstCopies [] (e.freeNames [])

end Expr

end Keystroke
