import CustomProperties.Text.Basic

/-! # Entries

Lists of keys with values, in which a key keeps the position of its first insertion and takes the
value of its last.
-/

namespace CustomProperties.Entries

variable {α : Type}

def put (key : Text) (value : α) : List (Text × α) → List (Text × α)
  | [] => [(key, value)]
  | e :: es => if e.1 = key then (key, value) :: es else e :: put key value es

/-- The entries that a list of pairs leaves, read from left to right. -/
def ofPairs (ps : List (Text × α)) : List (Text × α) := ps.foldl (fun es p => put p.1 p.2 es) []

theorem mem_keys_put {key k : Text} {value : α} {es : List (Text × α)} :
    k ∈ (put key value es).map Prod.fst ↔ k = key ∨ k ∈ es.map Prod.fst := by
  induction es with
  | nil => simp [put]
  | cons e es ih =>
    by_cases h : e.1 = key
    · simp [put, h]
    · simp only [put, h, if_false, List.map_cons, List.mem_cons, ih]
      constructor
      · rintro (h | h | h) <;> simp [h]
      · rintro (h | h | h) <;> simp [h]

theorem nodup_put {key : Text} {value : α} {es : List (Text × α)}
    (h : (es.map Prod.fst).Nodup) : ((put key value es).map Prod.fst).Nodup := by
  induction es with
  | nil => simp [put]
  | cons e es ih =>
    rw [List.map_cons, List.nodup_cons] at h
    by_cases he : e.1 = key
    · rw [put, if_pos he, List.map_cons, List.nodup_cons]
      exact ⟨he ▸ h.1, h.2⟩
    · rw [put, if_neg he, List.map_cons, List.nodup_cons, mem_keys_put, not_or]
      exact ⟨⟨he, h.1⟩, ih h.2⟩

theorem lookup_put (key k : Text) (value : α) (es : List (Text × α)) :
    (put key value es).lookup k = if k = key then some value else es.lookup k := by
  induction es with
  | nil =>
    by_cases h : k = key
    · simp [put, h]
    · simp [put, h, List.lookup_cons, beq_eq_false_iff_ne.mpr h]
  | cons e es ih =>
    obtain ⟨k', v⟩ := e
    by_cases he : k' = key
    · by_cases h : k = key
      · simp [put, he, h]
      · simp [put, he, h, List.lookup_cons, beq_eq_false_iff_ne.mpr h]
    · by_cases hk : k = k'
      · simp [put, he, hk]
      · simp [put, he, List.lookup_cons, beq_eq_false_iff_ne.mpr hk, ih]

end CustomProperties.Entries
