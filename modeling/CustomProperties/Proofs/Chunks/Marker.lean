import CustomProperties.Chunks.Basic
import Mathlib.Data.List.Basic

/-! # Markers

A marker is read back as the index it was written with. Its slashes stand at its ends only, so a
match that starts before a marker can share no more than one slash with it, and then the text
before the marker ends in a marker that lacks its last character. Behind any other text the chunk
is put back, and what is put back is not looked at again. Putting back fails exactly if some index
has too many digits to be read.
-/

namespace CustomProperties

namespace Text

theorem digit?_of_isDigit {c : Char} (h : c.isDigit = true) :
    digit? c = some (c.toNat - '0'.toNat) := by
  obtain ⟨hl, hu⟩ := Char.isDigit_iff_toNat.mp h
  have hl' : 0x30 ≤ c.toNat := hl
  have hu' : c.toNat < 0x30 + 10 := Nat.lt_succ_of_le hu
  simp [digit?, zeros, hl', hu']

theorem isSome_digit?_of_mem_ofNat {n : Nat} {c : Char} (h : c ∈ ofNat n) :
    (digit? c).isSome = true := by
  rw [digit?_of_isDigit (Nat.isDigit_of_mem_toDigits (by decide) (by decide) h)]
  rfl

theorem valueOf_ofNat (n : Nat) : valueOf (ofNat n) = n := by
  have hv : ∀ ds : Text, (∀ c ∈ ds, c.isDigit = true) →
      ds.filterMap digit? = ds.map fun c => c.toNat - '0'.toNat := by
    intro ds hd
    rw [← List.filterMap_eq_map]
    exact List.filterMap_congr fun c hc => digit?_of_isDigit (hd c hc)
  rw [valueOf, ofNat, hv _ fun c hc => Nat.isDigit_of_mem_toDigits (by decide) (by decide) hc,
    ofDigits, List.foldl_map, ← Nat.ofDigitChars_eq_foldl, Nat.ofDigitChars_toDigits (by decide) (by decide)]

end Text

namespace Chunks

/-- What every marker contains and no other text of a run may contain. -/
def tag : Text := "__CSSVARS-CHUNK-"

/-- The comment that a marker is read as. -/
def label (index : Nat) : Text := tag ++ Text.ofNat index ++ "__"

theorem marker_eq (index : Nat) : marker index = "/*" ++ label index ++ "*/" := by
  have hs : markerStart = "/*" ++ tag := rfl
  have he : markerEnd = "__" ++ "*/" := rfl
  rw [marker, label, hs, he]
  simp only [List.append_assoc]

/-- The text between the slashes of a marker with the given digits. -/
def core (digits : Text) : Text := ['*'] ++ tag ++ digits ++ "__*"

theorem slash_core_slash (digits rest : Text) :
    '/' :: (core digits ++ '/' :: rest) = markerStart ++ (digits ++ (markerEnd ++ rest)) := by
  have hs : markerStart = '/' :: (['*'] ++ tag) := rfl
  have he : markerEnd = "__*" ++ ['/'] := rfl
  rw [core, hs, he]
  simp only [List.append_assoc, List.cons_append, List.nil_append]

variable {chunks : List Text} {digits t u rest css : Text} {i : Nat}

theorem slash_not_mem_core (h : ∀ c ∈ digits, (Text.digit? c).isSome = true) : '/' ∉ core digits := by
  have hd : '/' ∉ digits := fun hm => absurd (h _ hm) (by decide)
  have ht : '/' ∉ tag := by decide
  have he : '/' ∉ ("__*" : String).toList := by decide
  rw [core, List.mem_append, List.mem_append, List.mem_append]
  rintro (((hm | hm) | hm) | hm)
  · exact absurd hm (by decide)
  · exact ht hm
  · exact hd hm
  · exact he hm

theorem occurs_tag_core (digits : Text) : tag <:+: core digits := by
  rw [core, List.append_assoc]
  exact List.infix_append ..

theorem takeWhile_digits (h : ∀ c ∈ digits, (Text.digit? c).isSome = true) (rest : Text) :
    ((digits ++ (markerEnd ++ rest)).takeWhile fun c => (Text.digit? c).isSome) = digits := by
  have hu : (Text.digit? '_').isSome = false := by decide
  rw [List.takeWhile_append_of_pos h]
  simp [markerEnd, hu]

theorem markerDigits?_eq_some_iff : markerDigits? t = some (digits, rest) ↔
    digits ≠ [] ∧ (∀ c ∈ digits, (Text.digit? c).isSome = true) ∧
      t = '/' :: (core digits ++ '/' :: rest) := by
  constructor
  · intro h
    unfold markerDigits? at h
    split at h
    next => contradiction
    next r hr =>
      dsimp only at h
      split at h
      next => contradiction
      next hn =>
        obtain ⟨after, ha, he⟩ := Option.map_eq_some_iff.mp h
        cases he
        have hd : r = (r.takeWhile fun c => (Text.digit? c).isSome) ++ (markerEnd ++ rest) := by
          rw [← Text.dropPrefix?_eq_some.mp ha,
            List.prefix_iff_eq_append.mp (List.takeWhile_prefix _)]
        refine ⟨mt List.isEmpty_iff.mpr hn, List.all_eq_true.mp List.all_takeWhile, ?_⟩
        rw [slash_core_slash, ← hd]
        exact Text.dropPrefix?_eq_some.mp hr
  · rintro ⟨hn, hd, rfl⟩
    have he : digits.isEmpty = false := List.isEmpty_eq_false_iff.mpr hn
    rw [slash_core_slash, markerDigits?, Text.dropPrefix?_append]
    dsimp only
    rw [takeWhile_digits hd, he, List.drop_left, Text.dropPrefix?_append]
    rfl

theorem marker?_eq_some_iff : marker? t = some (i, rest) ↔
    ∃ digits, digits ≠ [] ∧ (∀ c ∈ digits, (Text.digit? c).isSome = true) ∧
      i = Text.valueOf digits ∧ t = '/' :: (core digits ++ '/' :: rest) := by
  rw [marker?, Option.map_eq_some_iff]
  constructor
  · rintro ⟨⟨digits, r⟩, hm, he⟩
    cases he
    obtain ⟨hn, hd, ht⟩ := markerDigits?_eq_some_iff.mp hm
    exact ⟨digits, hn, hd, rfl, ht⟩
  · rintro ⟨digits, hn, hd, rfl, ht⟩
    exact ⟨(digits, rest), markerDigits?_eq_some_iff.mpr ⟨hn, hd, ht⟩, rfl⟩

theorem marker?_eq_none_iff : marker? t = none ↔ markerDigits? t = none := Option.map_eq_none_iff

theorem marker?_of_markerDigits? (h : markerDigits? t = some (digits, rest)) :
    marker? t = some (Text.valueOf digits, rest) := by
  rw [marker?, h]
  rfl

theorem marker?_marker (i : Nat) (t : Text) : marker? (marker i ++ t) = some (i, t) := by
  refine marker?_eq_some_iff.mpr ⟨Text.ofNat i, Nat.toDigits_ne_nil,
    fun c hc => Text.isSome_digit?_of_mem_ofNat hc, (Text.valueOf_ofNat i).symm, ?_⟩
  rw [slash_core_slash, marker]
  simp only [List.append_assoc]

theorem marker?_append (h : marker? t = some (i, rest)) (u : Text) :
    marker? (t ++ u) = some (i, rest ++ u) := by
  obtain ⟨digits, hn, hd, hi, rfl⟩ := marker?_eq_some_iff.mp h
  exact marker?_eq_some_iff.mpr ⟨digits, hn, hd, hi, by simp⟩

theorem occurs_tag_of_marker? (h : marker? t = some (i, rest)) : tag <:+: t := by
  obtain ⟨digits, -, -, -, rfl⟩ := marker?_eq_some_iff.mp h
  exact (occurs_tag_core digits).trans ⟨['/'], '/' :: rest, by simp⟩

/-! ### Putting chunks back -/

theorem restoreOnto_of_marker? (h : marker? t = some (i, rest)) (done : Text) :
    restoreOnto chunks done t =
      restoreOnto chunks ((chunks[i]?.getD (t.take (t.length - rest.length))).reverse ++ done)
        rest := by
  rw [restoreOnto]
  split
  next h' =>
    rw [h] at h'
    cases h'
    rfl
  next h' => rw [h] at h'; contradiction

theorem restoreOnto_cons {c : Char} (h : marker? (c :: t) = none) (done : Text) :
    restoreOnto chunks done (c :: t) = restoreOnto chunks (c :: done) t := by
  rw [restoreOnto]
  split
  next h' => rw [h] at h'; contradiction
  next => rfl

theorem marker?_nil : marker? [] = none := rfl

theorem restoreOnto_nil (done : Text) : restoreOnto chunks done [] = done.reverse := by
  rw [restoreOnto]
  split
  next h' => rw [marker?_nil] at h'; contradiction
  next => rfl

theorem restoreOnto_append (done earlier t : Text) :
    restoreOnto chunks (done ++ earlier) t = earlier.reverse ++ restoreOnto chunks done t := by
  fun_induction restoreOnto chunks done t with
  | case1 done t i rest h chunk ih =>
    rw [restoreOnto_of_marker? h, ← List.append_assoc]
    exact ih
  | case2 done h => rw [restoreOnto_nil, List.reverse_append]
  | case3 done c t h ih =>
    rw [restoreOnto_cons h]
    exact ih

theorem restoreOnto_eq (done t : Text) :
    restoreOnto chunks done t = done.reverse ++ restore chunks t :=
  restoreOnto_append [] done t

@[simp] theorem restore_nil : restore chunks [] = [] := restoreOnto_nil []

theorem restore_of_marker? (h : marker? t = some (i, rest)) :
    restore chunks t =
      chunks[i]?.getD (t.take (t.length - rest.length)) ++ restore chunks rest := by
  rw [restore, restoreOnto_of_marker? h, restoreOnto_eq, List.append_nil, List.reverse_reverse]

theorem restore_append_of_marker? (h : marker? t = some (i, rest)) (u : Text) :
    restore chunks (t ++ u) =
      chunks[i]?.getD (t.take (t.length - rest.length)) ++ restore chunks (rest ++ u) := by
  have hk : (t ++ u).take ((t ++ u).length - (rest ++ u).length) =
      t.take (t.length - rest.length) := by
    have hl : (t ++ u).length - (rest ++ u).length = t.length - rest.length := by
      simp only [List.length_append]
      omega
    rw [hl, List.take_append_of_le_length (Nat.sub_le _ _)]
  rw [restore_of_marker? (marker?_append h u), hk]

theorem restore_cons {c : Char} (h : marker? (c :: t) = none) :
    restore chunks (c :: t) = c :: restore chunks t := by
  rw [restore, restoreOnto_cons h, restoreOnto_eq]
  rfl

def EndsInMarker (t : Text) : Prop :=
  ∃ before digits, (∀ c ∈ digits, (Text.digit? c).isSome = true) ∧
    t = before ++ '/' :: core digits

theorem EndsInMarker.of_suffix (h : EndsInMarker t) (hs : t <:+ u) : EndsInMarker u := by
  obtain ⟨before, digits, hd, rfl⟩ := h
  obtain ⟨x, rfl⟩ := hs
  exact ⟨x ++ before, digits, hd, (List.append_assoc ..).symm⟩

theorem not_endsInMarker_of_getLast? (h : t.getLast? ≠ some '*') : ¬EndsInMarker t := by
  rintro ⟨before, digits, -, rfl⟩
  apply h
  have hc : core digits = ['*'] ++ tag ++ digits ++ "__" ++ ['*'] := by
    have he : ("__*" : String).toList = ("__" : String).toList ++ ['*'] := rfl
    rw [core, he]
    simp only [List.append_assoc]
  rw [hc, ← List.cons_append, ← List.append_assoc, List.getLast?_concat]

theorem not_endsInMarker_of_not_occurs (h : Text.occurs tag t = false) : ¬EndsInMarker t := by
  rintro ⟨before, digits, -, rfl⟩
  have ho : tag <:+: before ++ '/' :: core digits :=
    (occurs_tag_core digits).trans ⟨before ++ ['/'], [], by simp⟩
  exact absurd (Text.occurs_iff.mpr ho) (by simp [h])

/-- No marker that starts before another one reaches into it. -/
theorem marker?_append_marker {c : Char} (h : marker? (c :: t) = none)
    (ht : ¬EndsInMarker (c :: t)) (i : Nat) (u : Text) :
    marker? (c :: (t ++ (marker i ++ u))) = none := by
  rw [Option.eq_none_iff_forall_ne_some]
  rintro ⟨j, rest⟩ hm
  obtain ⟨digits, hn, hd, hj, he⟩ := marker?_eq_some_iff.mp hm
  have hs : ∃ v, marker i ++ u = '/' :: v := ⟨_, by rw [marker]; rfl⟩
  obtain ⟨v, hv⟩ := hs
  rw [hv, List.cons.injEq] at he
  obtain ⟨rfl, he⟩ := he
  have hend (hx : t = core digits) : False := ht ⟨[], digits, hd, by rw [hx]; rfl⟩
  -- the core has no slash, so it ends before `t` does, or where the marker starts
  rcases List.append_eq_append_iff.mp he with ⟨x, hx, hy⟩ | ⟨x, hx, hy⟩
  · cases x with
    | nil => exact hend (by rw [hx, List.append_nil])
    | cons d x =>
      rw [List.cons_append, List.cons.injEq] at hy
      exact slash_not_mem_core hd (by rw [hx, ← hy.1]; simp)
  · cases x with
    | nil => exact hend (by rw [hx, List.append_nil])
    | cons d x =>
      rw [List.cons_append, List.cons.injEq] at hy
      obtain ⟨rfl, -⟩ := hy
      have hk := marker?_eq_some_iff.mpr ⟨digits, hn, hd, hj, congrArg (List.cons '/') hx⟩
      rw [h] at hk
      contradiction

theorem restore_append_marker (hi : chunks[i]? = some css) (ht : ¬EndsInMarker t) (u : Text) :
    restore chunks (t ++ (marker i ++ u)) = restore chunks t ++ (css ++ restore chunks u) := by
  induction hl : t.length using Nat.strongRecOn generalizing t with
  | ind n ih =>
    cases t with
    | nil =>
      rw [List.nil_append, restore_of_marker? (marker?_marker i u), hi, restore_nil]
      rfl
    | cons c t =>
      cases hm : marker? (c :: t) with
      | none =>
        rw [List.cons_append, restore_cons (marker?_append_marker hm ht i u), restore_cons hm,
          ih t.length (by simp [← hl]) (fun h => ht (h.of_suffix (List.suffix_cons c t))) rfl]
        rfl
      | some found =>
        obtain ⟨j, rest⟩ := found
        have hr := length_marker? hm
        obtain ⟨digits, -, -, -, he⟩ := marker?_eq_some_iff.mp hm
        have hsuf : rest <:+ c :: t := ⟨'/' :: (core digits ++ ['/']), by rw [he]; simp⟩
        rw [restore_append_of_marker? hm, restore_of_marker? hm,
          ih rest.length (hl ▸ hr) (fun h => ht (h.of_suffix hsuf)) rfl, List.append_assoc]

theorem restore_of_not_occurs (h : Text.occurs tag t = false) : restore chunks t = t := by
  induction t with
  | nil => exact restore_nil
  | cons c t ih =>
    have hm : marker? (c :: t) = none := by
      rw [Option.eq_none_iff_forall_ne_some]
      rintro ⟨i, rest⟩ hm
      exact absurd (Text.occurs_iff.mpr (occurs_tag_of_marker? hm)) (by simp [h])
    rw [Text.occurs, Bool.or_eq_false_iff] at h
    rw [restore_cons hm, ih h.2]

/-! ### Indices that are not read -/

def digitsIn (t : Text) : List Text :=
  match _ : markerDigits? t with
  | some (digits, rest) => digits :: digitsIn rest
  | none =>
    match t with
    | [] => []
    | _ :: t => digitsIn t
termination_by t.length
decreasing_by
  · exact length_markerDigits? ‹_›
  · simp

theorem digitsIn_of_markerDigits? (h : markerDigits? t = some (digits, rest)) :
    digitsIn t = digits :: digitsIn rest := by
  rw [digitsIn]
  split
  next h' =>
    rw [h] at h'
    cases h'
    rfl
  next h' => rw [h] at h'; contradiction

theorem digitsIn_cons {c : Char} (h : markerDigits? (c :: t) = none) :
    digitsIn (c :: t) = digitsIn t := by
  rw [digitsIn]
  split
  next h' => rw [h] at h'; contradiction
  next => rfl

theorem markerDigits?_nil : markerDigits? [] = none := rfl

@[simp] theorem digitsIn_nil : digitsIn [] = [] := by
  rw [digitsIn]
  split
  next h' => rw [markerDigits?_nil] at h'; contradiction
  next => rfl

/-- The first index in the markers of a text that has too many digits to be read. -/
def longIndex? (t : Text) : Option Text.LongNumber :=
  (digitsIn t).findSome? fun digits =>
    if digits.length ≤ Text.digitLimit then none else some ⟨digits.length⟩

theorem longIndex?_eq_none_iff :
    longIndex? t = none ↔ ∀ digits ∈ digitsIn t, digits.length ≤ Text.digitLimit := by
  simp [longIndex?, List.findSome?_eq_none_iff]

theorem tryRestoreOnto_eq (done t : Text) :
    tryRestoreOnto chunks done t = (longIndex? t).elim (.ok (restoreOnto chunks done t)) .error := by
  fun_induction tryRestoreOnto chunks done t with
  | case1 done t digits rest hm number hn =>
    rw [Text.readNat] at hn
    split at hn
    next => contradiction
    next hl =>
      cases hn
      simp [longIndex?, digitsIn_of_markerDigits? hm, hl]
  | case2 done t digits rest hm i hn chunk ih =>
    rw [Text.readNat] at hn
    split at hn
    next hl =>
      cases hn
      have hr : longIndex? t = longIndex? rest := by
        simp [longIndex?, digitsIn_of_markerDigits? hm, hl]
      rw [hr, restoreOnto_of_marker? (marker?_of_markerDigits? hm)]
      exact ih
    next => contradiction
  | case3 done hm => simp [longIndex?, restoreOnto_nil]
  | case4 done c t hm ih =>
    have hr : longIndex? (c :: t) = longIndex? t := by rw [longIndex?, digitsIn_cons hm, longIndex?]
    rw [hr, restoreOnto_cons (marker?_eq_none_iff.mpr hm)]
    exact ih

/-- Chunks are put back unless an index has too many digits. The first such index is the fault. -/
theorem tryRestore_eq (chunks : List Text) (t : Text) :
    tryRestore chunks t = (longIndex? t).elim (.ok (restore chunks t)) .error :=
  tryRestoreOnto_eq [] t

end Chunks

end CustomProperties
