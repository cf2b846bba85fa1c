import CustomProperties.Proofs.Variables.Collection
import Mathlib.Data.List.Induction

/-! # The last write

A name is bound to the value that was written last. It stands where it was written first, so of two
spellings of one name the one that was first used later is collected later, whatever was written
last.
-/

namespace CustomProperties

def lastValue? (name : Text) (es : List (Text × Text)) : Option Text := es.reverse.lookup name

theorem lastValue?_append (name : Text) (es es' : List (Text × Text)) :
    lastValue? name (es ++ es') = (lastValue? name es').or (lastValue? name es) := by
  rw [lastValue?, List.reverse_append, List.lookup_append]
  rfl

theorem lastValue?_singleton (name : Text) (e : Text × Text) :
    lastValue? name [e] = if name = e.1 then some e.2 else none := by
  rw [lastValue?, List.reverse_singleton, List.lookup_cons]
  by_cases h : name = e.1
  · simp [h]
  · simp [beq_eq_false_iff_ne.mpr h, h]

theorem mem_of_lastValue? {name v : Text} {es : List (Text × Text)} (h : lastValue? name es = some v) :
    (name, v) ∈ es := by
  obtain ⟨l, r, he, -⟩ := List.lookup_eq_some_iff.mp h
  exact List.mem_reverse.mp (by simp [he])

namespace Entries

variable {α : Type} {key key' : Text} {value value' : α} {es : List (Text × α)}

theorem put_put (key : Text) (value value' : α) (es : List (Text × α)) :
    put key value' (put key value es) = put key value' es := by
  induction es with
  | nil => simp [put]
  | cons e es ih =>
    by_cases h : e.1 = key
    · simp [put, h]
    · simp [put, h, ih]

theorem put_of_not_mem (h : key ∉ es.map Prod.fst) : put key value es = es ++ [(key, value)] := by
  induction es with
  | nil => rfl
  | cons e es ih =>
    rw [List.map_cons, List.mem_cons, not_or] at h
    rw [put, if_neg (Ne.symm h.1), ih h.2]
    rfl

theorem keys_put (key : Text) (value : α) (es : List (Text × α)) :
    (put key value es).map Prod.fst =
      if key ∈ es.map Prod.fst then es.map Prod.fst else es.map Prod.fst ++ [key] := by
  induction es with
  | nil => simp [put]
  | cons e es ih =>
    by_cases h : e.1 = key
    · simp [put, h]
    · have hm : key ∈ (e :: es).map Prod.fst ↔ key ∈ es.map Prod.fst := by simp [Ne.symm h]
      rw [put, if_neg h, List.map_cons, ih]
      simp only [hm]
      split <;> rfl

theorem put_comm (h : key ∈ es.map Prod.fst) (hk : key ≠ key') :
    put key value (put key' value' es) = put key' value' (put key value es) := by
  induction es with
  | nil => contradiction
  | cons e es ih =>
    rcases List.mem_cons.mp h with rfl | hm
    · simp [put, hk]
    · by_cases he : e.1 = key
      · simp [put, he, hk]
      · by_cases he' : e.1 = key'
        · simp [put, he', Ne.symm hk]
        · simp [put, he, he', ih hm]

end Entries

namespace Bindings

@[ext] theorem ext {b b' : Bindings} (h : b.entries = b'.entries) : b = b' := by
  cases b
  cases b'
  simpa using h

theorem insert_insert (b : Bindings) (n v v' : Text) :
    (b.insert n v).insert n v' = b.insert n v' :=
  ext (Entries.put_put n v v' b.entries)

theorem names_insert (b : Bindings) (n v : Text) :
    (b.insert n v).names = if n ∈ b.names then b.names else b.names ++ [n] :=
  Entries.keys_put n v b.entries

theorem mem_names_insert {b : Bindings} {n v k : Text} :
    k ∈ (b.insert n v).names ↔ k = n ∨ k ∈ b.names :=
  Entries.mem_keys_put

theorem insertAll_cons (b : Bindings) (e : Text × Text) (es : List (Text × Text)) :
    b.insertAll (e :: es) = (b.insert e.1 e.2).insertAll es := rfl

theorem insertAll_concat (b : Bindings) (es : List (Text × Text)) (e : Text × Text) :
    b.insertAll (es ++ [e]) = (b.insertAll es).insert e.1 e.2 :=
  insertAll_append b es [e]

theorem find?_insertAll (b : Bindings) (es : List (Text × Text)) (n : Text) :
    (b.insertAll es).find? n = (lastValue? n es).or (b.find? n) := by
  induction es using List.reverseRecOn with
  | nil => rfl
  | append_singleton es e ih =>
    rw [insertAll_concat, find?_insert, ih, lastValue?_append, lastValue?_singleton]
    split <;> rfl

theorem find?_ofList (es : List (Text × Text)) (n : Text) :
    (ofList es).find? n = lastValue? n es := by
  rw [ofList, find?_insertAll, find?_empty, Option.or_none]

theorem mem_names_insertAll {b : Bindings} {es : List (Text × Text)} {k : Text} :
    k ∈ (b.insertAll es).names ↔ k ∈ es.map Prod.fst ∨ k ∈ b.names := by
  induction es generalizing b with
  | nil => simp [insertAll]
  | cons e es ih => rw [insertAll_cons, ih, mem_names_insert, List.map_cons, List.mem_cons]; tauto

theorem mem_names_ofList {es : List (Text × Text)} {k : Text} :
    k ∈ (ofList es).names ↔ k ∈ es.map Prod.fst := by
  rw [ofList, mem_names_insertAll]
  exact or_iff_left List.not_mem_nil

theorem insert_insertAll {b : Bindings} {es : List (Text × Text)} {n v : Text} (h : n ∈ b.names)
    (hn : n ∉ es.map Prod.fst) : (b.insertAll es).insert n v = (b.insert n v).insertAll es := by
  induction es generalizing b with
  | nil => rfl
  | cons e es ih =>
    rw [List.map_cons, List.mem_cons, not_or] at hn
    rw [insertAll_cons, insertAll_cons, ih (mem_names_insert.mpr (.inr h)) hn.2]
    exact congrArg (insertAll · es) (ext (Entries.put_comm h hn.1))

theorem insertAll_put {es : List (Text × Text)} (h : (es.map Prod.fst).Nodup) (b : Bindings)
    (n v : Text) : b.insertAll (Entries.put n v es) = (b.insertAll es).insert n v := by
  induction es generalizing b with
  | nil => rfl
  | cons e es ih =>
    rw [List.map_cons, List.nodup_cons] at h
    rw [Entries.put]
    split
    next he =>
      obtain rfl := he
      rw [insertAll_cons, insertAll_cons, insert_insertAll (mem_names_insert.mpr (.inl rfl)) h.1,
        insert_insert]
    next => rw [insertAll_cons, insertAll_cons, ih h.2]

/-- Entries may be brought into an order of their own before they are written. -/
theorem insertAll_ofList (b : Bindings) (es : List (Text × Text)) :
    b.insertAll (ofList es).entries = b.insertAll es := by
  induction es using List.reverseRecOn with
  | nil => rfl
  | append_singleton es e ih =>
    have he : (ofList (es ++ [e])).entries = Entries.put e.1 e.2 (ofList es).entries :=
      congrArg entries (insertAll_concat .empty es e)
    rw [he, insertAll_put (ofList es).nodup, ih, insertAll_concat]

theorem ofList_entries (b : Bindings) : ofList b.entries = b := by
  have h : ∀ es : List (Text × Text), (es.map Prod.fst).Nodup → (ofList es).entries = es := by
    intro es
    induction es using List.reverseRecOn with
    | nil => exact fun _ => rfl
    | append_singleton es e ih =>
      intro hn
      rw [List.map_append, List.nodup_append] at hn
      have hm : e.1 ∉ es.map Prod.fst := fun hm => hn.2.2 _ hm _ List.mem_cons_self rfl
      have hc : (ofList (es ++ [e])).entries = Entries.put e.1 e.2 (ofList es).entries :=
        congrArg entries (insertAll_concat .empty es e)
      rw [hc, ih hn.1, Entries.put_of_not_mem hm]
  exact ext (h b.entries b.nodup)

theorem lastValue?_entries (b : Bindings) (n : Text) : lastValue? n b.entries = b.find? n := by
  rw [← find?_ofList, ofList_entries]

end Bindings

/-! ### Spellings of a name -/

def spellings (name : Text) (keys : List Text) : List Text :=
  keys.filter fun k => normalizeName k = name

/-- The spelling of a name that is used last is the one that was first used last. -/
def LastIsNewest (name : Text) (keys : List Text) : Prop :=
  ∀ k ∈ (spellings name keys).getLast?, ∀ k' ∈ spellings name keys,
    k' = k ∨ k' ∈ keys.takeWhile (· ≠ k)

instance (name : Text) (keys : List Text) : Decidable (LastIsNewest name keys) :=
  inferInstanceAs (Decidable (∀ k ∈ (spellings name keys).getLast?, ∀ k' ∈ spellings name keys,
    k' = k ∨ k' ∈ keys.takeWhile (· ≠ k)))

def normalized (es : List (Text × Text)) : List (Text × Text) :=
  es.map fun e => (normalizeName e.1, e.2)

variable {name : Text}

theorem mem_spellings {keys : List Text} {k : Text} :
    k ∈ spellings name keys ↔ k ∈ keys ∧ normalizeName k = name := by
  simp [spellings]

theorem spellings_concat (keys : List Text) (k : Text) :
    spellings name (keys ++ [k]) =
      if normalizeName k = name then spellings name keys ++ [k] else spellings name keys := by
  by_cases h : normalizeName k = name <;> simp [spellings, h]

theorem lastValue?_normalized (es : List (Text × Text)) :
    lastValue? name (normalized es) =
      (spellings name (es.map Prod.fst)).getLast?.bind (lastValue? · es) := by
  induction es using List.reverseRecOn with
  | nil => rfl
  | append_singleton es e ih =>
    have hn : normalized (es ++ [e]) = normalized es ++ [(normalizeName e.1, e.2)] := by
      simp [normalized]
    rw [hn, lastValue?_append, lastValue?_singleton, ih, List.map_append, List.map_singleton,
      spellings_concat]
    by_cases h : normalizeName e.1 = name
    · simp [h, lastValue?_append, lastValue?_singleton]
    · rw [if_neg (Ne.symm h), if_neg h, Option.none_or]
      refine Option.bind_congr fun k hk => ?_
      have hs := (mem_spellings.mp (List.mem_of_getLast? hk)).2
      have hne : k ≠ e.1 := fun he => h (he ▸ hs)
      rw [lastValue?_append, lastValue?_singleton, if_neg hne, Option.none_or]

/-- While all spellings of a name are bound, the one that stands last stays the last. -/
theorem getLast?_spellings_insertAll {b : Bindings} {es : List (Text × Text)} {k : Text}
    (hb : (spellings name b.names).getLast? = some k)
    (hs : ∀ k' ∈ spellings name (es.map Prod.fst), k' ∈ b.names) :
    (spellings name (b.insertAll es).names).getLast? = some k := by
  induction es generalizing b with
  | nil => exact hb
  | cons e es ih =>
    have hi : spellings name (b.insert e.1 e.2).names = spellings name b.names := by
      rw [Bindings.names_insert]
      split
      next => rfl
      next hm =>
        rw [spellings_concat, if_neg]
        exact fun hn => hm (hs e.1 (mem_spellings.mpr ⟨List.mem_cons_self, hn⟩))
    refine ih (hi ▸ hb) fun k' hk' => Bindings.mem_names_insert.mpr (.inr (hs k' ?_))
    obtain ⟨hm, hn⟩ := mem_spellings.mp hk'
    exact mem_spellings.mpr ⟨List.mem_cons_of_mem _ hm, hn⟩

theorem LastIsNewest.getLast?_spellings {es : List (Text × Text)} (h : LastIsNewest name (es.map Prod.fst)) :
    (spellings name (Bindings.ofList es).names).getLast? =
      (spellings name (es.map Prod.fst)).getLast? := by
  cases hk : (spellings name (es.map Prod.fst)).getLast? with
  | none =>
    rw [List.getLast?_eq_none_iff] at hk ⊢
    refine List.eq_nil_iff_forall_not_mem.mpr fun k hm => ?_
    obtain ⟨hm, hn⟩ := mem_spellings.mp hm
    have hm := mem_spellings.mpr ⟨Bindings.mem_names_ofList.mp hm, hn⟩
    rw [hk] at hm
    contradiction
  | some k =>
    obtain ⟨hmem, hnorm⟩ := mem_spellings.mp (List.mem_of_getLast? hk)
    -- the entries before the first use of the last spelling, and those from there on
    obtain ⟨keys, keys', he, hfirst⟩ := List.eq_append_cons_of_mem hmem
    obtain ⟨before, rest, rfl, rfl, hrest⟩ := List.map_eq_append_iff.mp he
    obtain ⟨e, after, rfl, rfl, rfl⟩ := List.map_eq_cons_iff.mp hrest
    have hnew : e.1 ∉ (Bindings.ofList before).names := fun hm => hfirst (Bindings.mem_names_ofList.mp hm)
    have htake : ((before ++ e :: after).map Prod.fst).takeWhile (· ≠ e.1) = before.map Prod.fst := by
      have hall : ∀ k ∈ before.map Prod.fst, (decide (k ≠ e.1)) = true := fun k hm =>
        decide_eq_true fun he => hfirst (he ▸ hm)
      rw [List.map_append, List.takeWhile_append_of_pos hall]
      simp
    have hins : Bindings.ofList (before ++ e :: after) =
        ((Bindings.ofList before).insert e.1 e.2).insertAll after := by
      rw [Bindings.ofList, Bindings.insertAll_append]
      rfl
    rw [hins]
    refine getLast?_spellings_insertAll ?_ fun k' hk' => ?_
    · rw [Bindings.names_insert, if_neg hnew, spellings_concat, if_pos hnorm, List.getLast?_concat]
    · obtain ⟨hm, hn⟩ := mem_spellings.mp hk'
      have hall : k' ∈ spellings name ((before ++ e :: after).map Prod.fst) := by
        refine mem_spellings.mpr ⟨?_, hn⟩
        rw [List.map_append, List.map_cons]
        exact List.mem_append_right _ (List.mem_cons_of_mem _ hm)
      rcases h e.1 hk k' hall with rfl | hb
      · exact Bindings.mem_names_insert.mpr (.inl rfl)
      · rw [htake] at hb
        exact Bindings.mem_names_insert.mpr (.inr (Bindings.mem_names_ofList.mpr hb))

/-- Then the bindings of the spellings end with the last value of the name. -/
theorem LastIsNewest.lastValue?_ofList {es : List (Text × Text)} (h : LastIsNewest name (es.map Prod.fst)) :
    lastValue? name (normalized (Bindings.ofList es).entries) =
      lastValue? name (normalized es) := by
  have hl : (fun k => lastValue? k (Bindings.ofList es).entries) =
      (fun k => lastValue? k es) := by
    funext k
    rw [Bindings.lastValue?_entries, Bindings.find?_ofList]
  rw [lastValue?_normalized, lastValue?_normalized, hl]
  exact congrArg (Option.bind · _) h.getLast?_spellings

theorem Sheet.find?_bindings (s : Sheet) (overrides : Bindings) (n : Text) :
    (s.bindings overrides).find? n =
      (lastValue? n (normalized overrides.entries)).or
        (lastValue? n (s.definitions.map Declaration.binding)) := by
  have ho : (overrideDeclarations overrides).map Declaration.binding = normalized overrides.entries := by
    rw [overrideDeclarations, List.map_map]
    rfl
  change (Bindings.ofList (List.map Declaration.binding _)).find? n = _
  rw [List.map_append, ho, Bindings.find?_ofList, lastValue?_append]

end CustomProperties
