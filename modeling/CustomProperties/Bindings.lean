import CustomProperties.Entries

/-! # Bindings

An ordered map from names to values. A name keeps the position of its first insertion and takes
the value of its last.
-/

namespace CustomProperties

structure Bindings where
  entries : List (Text × Text)
  nodup : (entries.map Prod.fst).Nodup
  deriving DecidableEq

namespace Bindings

def empty : Bindings := ⟨[], List.nodup_nil⟩

def names (b : Bindings) : List Text := b.entries.map Prod.fst

def size (b : Bindings) : Nat := b.entries.length

def isEmpty (b : Bindings) : Bool := b.entries.isEmpty

def find? (b : Bindings) (name : Text) : Option Text := b.entries.lookup name

def contains (b : Bindings) (name : Text) : Bool := (b.find? name).isSome

def insert (b : Bindings) (name value : Text) : Bindings :=
  ⟨Entries.put name value b.entries, Entries.nodup_put b.nodup⟩

/-- The length of the longest value. -/
def longest (b : Bindings) : Nat := b.entries.foldr (fun e n => max e.2.length n) 0

/-- Later entries win. -/
def insertAll (b : Bindings) (es : List (Text × Text)) : Bindings :=
  es.foldl (fun b e => b.insert e.1 e.2) b

def ofList (es : List (Text × Text)) : Bindings := empty.insertAll es

@[simp] theorem find?_empty (n : Text) : empty.find? n = none := rfl

@[simp] theorem find?_insert (b : Bindings) (name value n : Text) :
    (b.insert name value).find? n = if n = name then some value else b.find? n :=
  Entries.lookup_put name n value b.entries

theorem mem_entries_of_find? {b : Bindings} {n v : Text} (h : b.find? n = some v) :
    (n, v) ∈ b.entries := by
  obtain ⟨l, r, he, -⟩ := List.lookup_eq_some_iff.mp h
  simp [he]

theorem length_le_foldr {n v : Text} {es : List (Text × Text)} (h : (n, v) ∈ es) :
    v.length ≤ es.foldr (fun e n => max e.2.length n) 0 := by
  induction es with
  | nil => simp at h
  | cons e es ih =>
    rcases List.mem_cons.mp h with rfl | h
    · exact Nat.le_max_left ..
    · exact Nat.le_trans (ih h) (Nat.le_max_right ..)

theorem length_le_longest {b : Bindings} {n v : Text} (h : b.find? n = some v) :
    v.length ≤ b.longest :=
  length_le_foldr (mem_entries_of_find? h)

theorem mem_names_of_find? {b : Bindings} {n v : Text} (h : b.find? n = some v) : n ∈ b.names :=
  List.mem_map_of_mem (f := Prod.fst) (mem_entries_of_find? h)

end Bindings

end CustomProperties
