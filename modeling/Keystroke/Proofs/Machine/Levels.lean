import Keystroke.Machine.Run
import Mathlib.Data.List.Basic

set_option autoImplicit false

/-! # Local variables by level

The machine keeps local variables in a table by level and looks a name up from the current level
down. Here the levels are a list, innermost first, and looking up or storing walks along it. -/

namespace Keystroke

namespace Assoc

variable {κ β : Type} [DecidableEq κ]

@[simp]
theorem find?_nil (key : κ) : find? ([] : Assoc κ β) key = none := rfl

@[simp]
theorem find?_put (m : Assoc κ β) (key key' : κ) (value : β) :
    (m.put key value).find? key' = if key = key' then some value else m.find? key' := by
  induction m with
  | nil => simp [put, find?]
  | cons kv rest ih =>
    obtain ⟨k, v⟩ := kv
    by_cases hk : k = key
    · by_cases hk' : key = key' <;> simp [put, find?, hk, hk']
    · by_cases hk' : k = key'
      · have hne : key ≠ key' := fun h => hk (hk'.trans h.symm)
        simp [put, find?, hk', hne, Ne.symm hne]
      · simp [put, find?, hk, hk', ih]

@[simp]
theorem find?_remove (m : Assoc κ β) (key key' : κ) :
    (m.remove key).find? key' = if key = key' then none else m.find? key' := by
  induction m with
  | nil => simp [remove, find?]
  | cons kv rest ih =>
    obtain ⟨k, v⟩ := kv
    rw [remove] at ih ⊢
    by_cases hk : k = key
    · by_cases hk' : key = key' <;> simp_all [find?]
    · by_cases hk' : k = key'
      · have hne : key ≠ key' := fun h => hk (hk'.trans h.symm)
        simp [find?, hk', hne, Ne.symm hne]
      · simp_all [find?]

theorem put_of_find?_eq_none {m : Assoc κ β} {key : κ} (h : m.find? key = none) (value : β) :
    m.put key value = m ++ [(key, value)] := by
  induction m with
  | nil => rfl
  | cons entry rest ih =>
    obtain ⟨other, _⟩ := entry
    by_cases hother : other = key
    · simp [find?, hother] at h
    · simp only [find?, if_neg hother] at h
      simp only [put, if_neg hother, ih h, List.cons_append]

theorem find?_eq_none_iff {m : Assoc κ β} {key : κ} : m.find? key = none ↔ key ∉ m.map (·.1) := by
  induction m with
  | nil => simp
  | cons entry rest ih =>
    obtain ⟨other, _⟩ := entry
    by_cases hother : other = key
    · simp [find?, hother]
    · simp [find?, hother, ih, Ne.symm hother]

theorem remove_of_not_mem {m : Assoc κ β} {key : κ} (h : key ∉ m.map (·.1)) : m.remove key = m := by
  refine List.filter_eq_self.2 fun entry hentry => ?_
  have hne : entry.1 ≠ key := fun heq => h (heq ▸ List.mem_map_of_mem hentry)
  simpa using hne

end Assoc

/-- A level that was entered: the line to go back to, and its variables. -/
structure Level where
  back : Nat
  locals : Assoc Bytes Float := []

namespace Level

/-- The variables of a level by its number; level zero has none. -/
def localsAt : List Level → Nat → Assoc Bytes Float
  | [], _ => []
  | l :: ls, n => if n = ls.length + 1 then l.locals else localsAt ls n

theorem localsAt_of_length_lt {ls : List Level} {n : Nat} (h : ls.length < n) :
    localsAt ls n = [] := by
  induction ls with
  | nil => rfl
  | cons l ls ih =>
    rw [List.length_cons] at h
    rw [localsAt, if_neg (by omega), ih (by omega)]

/-- The innermost value of a name. -/
def lookup? : List Level → Bytes → Option Float
  | [], _ => none
  | l :: ls, name => (l.locals.find? name).or (lookup? ls name)

/-- Gives the innermost variable of a name a value, if there is one. -/
def update? : List Level → Bytes → Float → Option (List Level)
  | [], _, _ => none
  | l :: ls, name, x =>
    if (l.locals.find? name).isSome then some ({ l with locals := l.locals.put name x } :: ls)
    else (update? ls name x).map (l :: ·)

/-- The value of a name: of the innermost local variable, or of the session's variable. -/
def valueIn (ls : List Level) (vars : Variables) (name : Bytes) : Except Error Float :=
  match lookup? ls name with
  | some x => .ok x
  | none => vars.fetch name

/-- Gives a name a value, where it has one already or else among the session's variables. -/
def storeIn (ls : List Level) (vars : Variables) (name : Bytes) (x : Float) :
    List Level × Variables :=
  match update? ls name x with
  | some ls => (ls, vars)
  | none => (ls, vars.store name x)

end Level

namespace Session

open Level

variable {s : Session} {l : Level} {ls : List Level} {name : Bytes} {x : Float}

/-- The session is in the innermost of the levels, and they have these variables. -/
structure HasLevels (s : Session) (ls : List Level) : Prop where
  level : s.calls.level = ls.length
  locals : ∀ n, (s.locals.find? n).getD [] = localsAt ls n

variable {table : Assoc Nat (Assoc Bytes Float)}

/-- The table has the variables of these levels. -/
def Holds (table : Assoc Nat (Assoc Bytes Float)) (ls : List Level) : Prop :=
  ∀ n ≤ ls.length, (table.find? n).getD [] = localsAt ls n

theorem bind_find?_eq {n : Nat} {vars : Assoc Bytes Float} (h : (table.find? n).getD [] = vars) :
    (table.find? n).bind (·.find? name) = vars.find? name := by
  rw [← h]
  cases table.find? n <;> rfl

theorem Holds.bind_find?_nil (h : Holds table []) : (table.find? 0).bind (·.find? name) = none :=
  bind_find?_eq (h 0 (Nat.le_refl 0))

theorem Holds.bind_find?_cons (h : Holds table (l :: ls)) :
    (table.find? (ls.length + 1)).bind (·.find? name) = l.locals.find? name := by
  refine bind_find?_eq ?_
  rw [h (ls.length + 1) (by simp), localsAt, if_pos rfl]

theorem Holds.tail (h : Holds table (l :: ls)) : Holds table ls := fun n hn => by
  rw [h n (by simp; omega), localsAt, if_neg (by omega)]

theorem localLevel?_eq (ls : List Level) (h : Holds table ls) :
    (localLevel? table name ls.length).bind (fun n => (table.find? n).bind (·.find? name))
      = lookup? ls name := by
  induction ls with
  | nil => simp [localLevel?, lookup?, h.bind_find?_nil]
  | cons l ls ih =>
    have hbelow := ih h.tail
    rw [List.length_cons, localLevel?, h.bind_find?_cons, lookup?]
    cases hf : l.locals.find? name with
    | some v => simp [h.bind_find?_cons, hf]
    | none => simpa using hbelow

theorem HasLevels.valueOf_eq (h : s.HasLevels ls) (name : Bytes) :
    s.valueOf name = valueIn ls s.vars name := by
  have hfind : (localLevel? s.locals name ls.length).bind
      (fun n => (s.locals.find? n).bind (·.find? name)) = lookup? ls name :=
    localLevel?_eq ls fun n _ => h.locals n
  cases hlook : lookup? ls name with
  | none => simp only [valueOf, levelOf?, h.level, hfind, valueIn, hlook]
  | some x => simp only [valueOf, levelOf?, h.level, hfind, valueIn, hlook]

theorem localLevel?_update (name : Bytes) (x : Float) (ls : List Level) (h : Holds table ls) :
    (∃ n ms, localLevel? table name ls.length = some n ∧ update? ls name x = some ms ∧
      ms.length = ls.length ∧ n ≤ ls.length ∧
      ∀ k, localsAt ms k
        = if n = k then (localsAt ls n).put name x else localsAt ls k) ∨
    localLevel? table name ls.length = none ∧ update? ls name x = none := by
  induction ls with
  | nil => exact .inr ⟨by simp [localLevel?, h.bind_find?_nil], rfl⟩
  | cons l ls ih =>
    rw [List.length_cons, localLevel?, h.bind_find?_cons, update?]
    cases hf : l.locals.find? name with
    | some v =>
      refine .inl ⟨ls.length + 1, _, by simp, by simp; rfl, by simp, Nat.le_refl _, fun k => ?_⟩
      by_cases hk : k = ls.length + 1
      · simp [localsAt, hk]
      · simp [localsAt, hk, Ne.symm hk]
    | none =>
      rcases ih h.tail with ⟨n, ms, hn, hms, hlen, hle, hat⟩ | ⟨hn, hms⟩
      · refine .inl ⟨n, l :: ms, by simpa using hn, by simp [hms], by simp [hlen], by omega,
          fun k => ?_⟩
        by_cases hk : k = ls.length + 1
        · simp [localsAt, hlen, hk, show n ≠ ls.length + 1 by omega]
        · simp [localsAt, hlen, hk, hat, show n ≠ ls.length + 1 by omega]
      · exact .inr ⟨by simpa using hn, by simp [hms]⟩

/-- Storing under a name changes one variable of a level or of the session, and nothing else. -/
theorem HasLevels.storeVariable_eq (h : s.HasLevels ls) (name : Bytes) (x : Float) :
    ∃ table, s.storeVariable name x
        = { s with locals := table, vars := (storeIn ls s.vars name x).2 } ∧
      ∀ n, (table.find? n).getD [] = localsAt (storeIn ls s.vars name x).1 n := by
  rcases localLevel?_update name x ls fun n _ => h.locals n with
    ⟨n, ms, hn, hms, hlen, hle, hat⟩ | ⟨hn, hms⟩
  · simp only [storeIn, hms, storeVariable, levelOf?, h.level, hn, putLocal]
    refine ⟨_, rfl, fun k => ?_⟩
    rw [Assoc.find?_put, hat]
    split
    · rw [Option.getD_some, h.locals]
    · exact h.locals k
  · simp only [storeIn, hms, storeVariable, levelOf?, h.level, hn]
    exact ⟨s.locals, rfl, h.locals⟩

theorem map_back_of_update? {ls ms : List Level} (h : update? ls name x = some ms) :
    ms.map Level.back = ls.map Level.back := by
  induction ls generalizing ms with
  | nil => exact absurd h (by simp [update?])
  | cons l ls ih =>
    rw [update?] at h
    split at h
    · obtain rfl := Option.some_inj.1 h
      rfl
    · obtain ⟨ms, hms, rfl⟩ := Option.map_eq_some_iff.1 h
      simp [ih hms]

theorem map_back_storeIn (ls : List Level) (vars : Variables) (name : Bytes) (x : Float) :
    (storeIn ls vars name x).1.map Level.back = ls.map Level.back := by
  unfold storeIn
  split
  · next ms h => exact map_back_of_update? h
  · rfl

theorem HasLevels.putLocal (h : s.HasLevels (l :: ls)) (name : Bytes) (x : Float) :
    (s.putLocal s.calls.level name x).HasLevels
      ({ l with locals := l.locals.put name x } :: ls) := by
  refine ⟨h.level, fun n => ?_⟩
  have hl : s.calls.level = ls.length + 1 := h.level
  simp only [Session.putLocal, hl, Assoc.find?_put, localsAt]
  have hlocals := h.locals n
  rw [localsAt] at hlocals
  by_cases hn : n = ls.length + 1
  · rw [if_pos hn] at hlocals
    subst hn
    rw [if_pos rfl, if_pos rfl, Option.getD_some, hlocals]
  · rw [if_neg hn] at hlocals
    rw [if_neg (Ne.symm hn), if_neg hn, hlocals]

end Session

end Keystroke
