import LessonScript.Value

/-! # Scopes

A name is looked up in the bindings of the current block, then in the globals. A value is written
to the block only if the block already binds the name, and to the globals otherwise. A block gets
its names at the turns of loops: each turn adds the loop variable to the names around it.

Bindings are only looked at through `get?`, which `get?_insert` decides; `read?_write` does the same
for scopes. -/

namespace LessonScript

/-- Names with what they are bound to, every name once. -/
structure Bindings (α : Type) where
  entries : List (Text × α)
  nodup : (entries.map Prod.fst).Nodup
deriving DecidableEq, Repr

namespace Bindings

variable {α : Type}

def empty : Bindings α := ⟨[], List.nodup_nil⟩

def get? (b : Bindings α) (name : Text) : Option α := b.entries.lookup name

def contains (b : Bindings α) (name : Text) : Bool := (b.get? name).isSome

def size (b : Bindings α) : Nat := b.entries.length

/-- The pairs with the one of a name replaced. -/
def replaced (name : Text) (a : α) (es : List (Text × α)) : List (Text × α) :=
  es.map fun e => if e.1 = name then (name, a) else e

theorem map_fst_replaced (name : Text) (a : α) (es : List (Text × α)) :
    (replaced name a es).map Prod.fst = es.map Prod.fst := by
  rw [replaced, List.map_map]
  refine List.map_congr_left fun e _ => ?_
  by_cases h : e.1 = name <;> simp [h]

theorem not_mem_of_lookup_eq_none {name : Text} {es : List (Text × α)}
    (h : es.lookup name = none) : name ∉ es.map Prod.fst := by
  rw [List.lookup_eq_none_iff] at h
  intro hmem
  obtain ⟨e, he, rfl⟩ := List.mem_map.mp hmem
  simpa using h e he

/-- The bindings with a name bound, in place of what it was bound to if it was. -/
def insert (b : Bindings α) (name : Text) (a : α) : Bindings α :=
  match h : b.entries.lookup name with
  | some _ => ⟨replaced name a b.entries, by rw [map_fst_replaced]; exact b.nodup⟩
  | none =>
    ⟨(name, a) :: b.entries, List.nodup_cons.mpr ⟨not_mem_of_lookup_eq_none h, b.nodup⟩⟩

@[simp] theorem get?_empty (name : Text) : (empty : Bindings α).get? name = none := rfl

theorem lookup_cons_ite (name key : Text) (a : α) (es : List (Text × α)) :
    ((key, a) :: es).lookup name = if name = key then some a else es.lookup name := by
  rw [List.lookup_cons]
  by_cases h : name = key
  · simp [h]
  · rw [beq_eq_false_iff_ne.mpr h, if_neg h]

theorem lookup_replaced (name other : Text) (a : α) (es : List (Text × α)) :
    (replaced name a es).lookup other =
      if other = name then (es.lookup name).map fun _ => a else es.lookup other := by
  unfold replaced
  induction es with
  | nil => simp
  | cons e es ih =>
    obtain ⟨key, value⟩ := e
    rw [List.map_cons, lookup_cons_ite name, lookup_cons_ite other]
    by_cases hk : key = name
    · subst hk
      rw [if_pos rfl, lookup_cons_ite, ih]
      by_cases ho : other = key <;> simp [ho]
    · rw [if_neg hk, lookup_cons_ite, ih, if_neg (Ne.symm hk)]
      by_cases ho : other = name
      · rw [if_pos ho, if_neg (by rw [ho]; exact Ne.symm hk), if_pos ho]
      · rw [if_neg ho, if_neg ho]

/-- **Reading after an insertion**: the inserted name has its new value, every other one its old. -/
theorem get?_insert (b : Bindings α) (name other : Text) (a : α) :
    (b.insert name a).get? other = if other = name then some a else b.get? other := by
  unfold insert get?
  split
  · next h => rw [lookup_replaced, h, Option.map_some]
  · exact lookup_cons_ite other name a b.entries

theorem contains_insert (b : Bindings α) (name other : Text) (a : α) :
    (b.insert name a).contains other = (decide (other = name) || b.contains other) := by
  unfold contains
  rw [get?_insert]
  by_cases h : other = name <;> simp [h]

end Bindings

/-- The bindings that a line sees. -/
structure Scope (ν : Type) where
  /-- The names of the block: the variables of the loops around it. -/
  block : Bindings (Value ν)
  /-- The names that live for the whole run. -/
  globals : Bindings (Value ν)

namespace Scope

variable {ν : Type}

def empty : Scope ν := ⟨.empty, .empty⟩

/-- The value of a name, in the block or else in the globals. -/
def read? (s : Scope ν) (name : Text) : Option (Value ν) :=
  (s.block.get? name).or (s.globals.get? name)

def write (s : Scope ν) (name : Text) (v : Value ν) : Scope ν :=
  if s.block.contains name then { s with block := s.block.insert name v }
  else { s with globals := s.globals.insert name v }

/-- The scope of a loop turn: the block with the loop variable bound. -/
def enterTurn (s : Scope ν) (var : Text) (v : Value ν) : Scope ν :=
  { s with block := s.block.insert var v }

/-- A name reads as the value written to it, and other names as before. -/
theorem read?_write (s : Scope ν) (name other : Text) (v : Value ν) :
    (s.write name v).read? other = if other = name then some v else s.read? other := by
  unfold write read?
  split
  · next h =>
    rw [Bindings.get?_insert]
    by_cases ho : other = name <;> simp [ho]
  · next h =>
    rw [Bindings.get?_insert]
    by_cases ho : other = name
    · subst ho
      have : s.block.get? other = none := by
        simpa [Bindings.contains] using h
      simp [this]
    · simp [ho]

/-- Writing does not change which names the block binds. -/
theorem contains_block_write (s : Scope ν) (name other : Text) (v : Value ν) :
    (s.write name v).block.contains other = s.block.contains other := by
  unfold write
  split
  · next h =>
    rw [Bindings.contains_insert]
    by_cases ho : other = name <;> simp [ho, h]
  · rfl

end Scope

end LessonScript
