import CustomProperties.Calc
import CustomProperties.Proofs.Parens.Balance
import CustomProperties.Proofs.Text.Letters

/-! # Names of calc functions

What stands in front of the parenthesis of a calc function is a name: perhaps a vendor between
hyphens, then the four letters. The scan for such functions finds exactly the names that do not
go on to the left, whatever follows the parenthesis.
-/

namespace CustomProperties.Calc

variable {previous : Option Char} {t rest name x : Text} {c : Char}

/-- A vendor between hyphens, or nothing. -/
inductive IsVendor : Text → Prop

  | none : IsVendor []

  | named {letters : Text} : letters ≠ [] → (∀ c ∈ letters, isVendorLetter c = true) →
      IsVendor ('-' :: (letters ++ ['-']))

/-- What stands in front of the parenthesis of a calc function. -/
def IsName (x : Text) : Prop :=
  ∃ vendor name, x = vendor ++ name ∧ IsVendor vendor ∧ Text.lowerAscii name = "calc"

/-! ### What the scan finds -/

theorem bare?_eq_some_iff :
    bare? t = some rest ↔ ∃ name, t = name ++ '(' :: rest ∧ Text.lowerAscii name = "calc" := by
  constructor
  · intro h
    unfold bare? at h
    split at h
    next a b c d t =>
      split at h
      next hl =>
        cases h
        exact ⟨[a, b, c, d], rfl, hl⟩
      next => contradiction
    next => contradiction
  · rintro ⟨name, rfl, hn⟩
    obtain ⟨a, _, rfl, -, h⟩ := List.map_eq_cons_iff.mp hn
    obtain ⟨b, _, rfl, -, h⟩ := List.map_eq_cons_iff.mp h
    obtain ⟨c, _, rfl, -, h⟩ := List.map_eq_cons_iff.mp h
    obtain ⟨d, _, rfl, -, h⟩ := List.map_eq_cons_iff.mp h
    obtain rfl := List.map_eq_nil_iff.mp h
    exact if_pos hn

theorem vendor?_eq_none (hc : c ≠ '-') (t : Text) : vendor? (c :: t) = none := by
  unfold vendor?
  split
  next h =>
    rw [List.cons.injEq] at h
    exact absurd h.1 hc
  next => rfl

theorem vendor?_eq_some_iff : vendor? t = some rest ↔
    ∃ letters, letters ≠ [] ∧ (∀ c ∈ letters, isVendorLetter c = true) ∧
      t = '-' :: (letters ++ '-' :: rest) := by
  constructor
  · intro h
    unfold vendor? at h
    split at h
    next t =>
      split at h
      next r hd =>
        split at h
        next => contradiction
        next hn =>
          cases h
          have ht := List.takeWhile_append_dropWhile (p := isVendorLetter) (l := t)
          rw [hd] at ht
          exact ⟨_, mt List.isEmpty_iff.mpr hn, List.all_eq_true.mp List.all_takeWhile,
            congrArg _ ht.symm⟩
      next => contradiction
    next => contradiction
  · rintro ⟨letters, hn, hl, rfl⟩
    have hy : isVendorLetter '-' = false := by decide
    have hdrop : (letters ++ '-' :: rest).dropWhile isVendorLetter = '-' :: rest := by
      rw [List.dropWhile_append_of_pos hl, List.dropWhile_cons_of_neg (by simp [hy])]
    have htake : (letters ++ '-' :: rest).takeWhile isVendorLetter = letters := by
      rw [List.takeWhile_append_of_pos hl, List.takeWhile_cons_of_neg (by simp [hy]),
        List.append_nil]
    rw [vendor?, hdrop, htake]
    exact if_neg (mt List.isEmpty_iff.mp hn)

theorem toLower_mem_of_calc (h : Text.lowerAscii name = "calc") (hc : c ∈ name) :
    c.toLower ∈ ("calc" : Text) := by
  rw [← h]
  exact List.mem_map_of_mem hc

theorem after?_eq_some_iff : after? t = some rest ↔ ∃ x, IsName x ∧ t = x ++ '(' :: rest := by
  constructor
  · intro h
    unfold after? at h
    split at h
    next r hv =>
      obtain ⟨letters, hn, hl, rfl⟩ := vendor?_eq_some_iff.mp hv
      obtain ⟨name, rfl, hc⟩ := bare?_eq_some_iff.mp h
      exact ⟨_, ⟨_, name, rfl, .named hn hl, hc⟩, by simp⟩
    next =>
      obtain ⟨name, rfl, hc⟩ := bare?_eq_some_iff.mp h
      exact ⟨name, ⟨[], name, rfl, .none, hc⟩, rfl⟩
  · rintro ⟨_, ⟨vendor, name, rfl, hv, hc⟩, rfl⟩
    have hb : bare? (name ++ '(' :: rest) = some rest := bare?_eq_some_iff.mpr ⟨name, rfl, hc⟩
    cases hv with
    | none =>
      obtain ⟨c, name, rfl⟩ := List.exists_cons_of_ne_nil (l := name) (by rintro rfl; contradiction)
      have hn : c ≠ '-' := by
        rintro rfl
        exact absurd (toLower_mem_of_calc hc List.mem_cons_self) (by decide)
      unfold after?
      rw [List.nil_append, List.cons_append, vendor?_eq_none hn]
      exact hb
    | @named letters hn hl =>
      have hv : vendor? ('-' :: (letters ++ ['-']) ++ name ++ '(' :: rest) =
          some (name ++ '(' :: rest) := vendor?_eq_some_iff.mpr ⟨letters, hn, hl, by simp⟩
      unfold after?
      rw [hv]
      exact hb

/-- A calc function is found where its name stands and does not go on to the left. -/
theorem token?_eq_some_iff : token? previous t = some rest ↔
    startsAfter previous = true ∧ ∃ x, IsName x ∧ t = x ++ '(' :: rest := by
  unfold token?
  split
  next h => simp only [h, true_and, after?_eq_some_iff]
  next h => simp [h]

theorem take_name (name rest : Text) : (name ++ '(' :: rest).take
    ((name ++ '(' :: rest).length - rest.length) = name ++ ['('] := by
  have hl : (name ++ '(' :: rest).length - rest.length = name.length + 1 := by
    rw [List.length_append, List.length_cons]
    omega
  rw [hl, List.take_length_add_append]
  rfl

/-! ### The characters of a name -/

theorem toLower_cases (c : Char) : (c.isUpper = true ∧ c.toNat < 0x80) ∨ c.toLower = c := by
  cases hu : c.isUpper with
  | true => exact .inl ⟨rfl, Nat.lt_of_le_of_lt (Text.isUpper_iff.mp hu).2 (by decide)⟩
  | false => exact .inr (Text.toLower_of_isUpper_eq_false hu)

theorem startsAfter_of_isVendorLetter (h : isVendorLetter c = true) :
    startsAfter (some c) = false := by
  simp only [isVendorLetter, Bool.or_eq_true, beq_iff_eq] at h
  rcases h with (((h | rfl) | rfl) | rfl) | rfl
  · have hl : c.toNat < 0x80 := by
      rcases Text.isAlpha_iff.mp h with h | h <;> omega
    simp [startsAfter, Text.isWord, hl, Char.isAlphanum, h]
  all_goals decide +kernel

theorem startsAfter_of_calc (h : Text.lowerAscii name = "calc") (hc : c ∈ name) :
    startsAfter (some c) = false := by
  have hm := toLower_mem_of_calc h hc
  have hall : ∀ d ∈ ("calc" : Text), isVendorLetter d = true := by decide
  rcases toLower_cases c with ⟨hu, -⟩ | he
  · exact startsAfter_of_isVendorLetter (by simp [isVendorLetter, Text.isAlpha_of_isUpper hu])
  · rw [he] at hm
    exact startsAfter_of_isVendorLetter (hall _ hm)

namespace IsName

theorem ne_nil (h : IsName x) : x ≠ [] := by
  rintro rfl
  obtain ⟨vendor, name, he, -, hn⟩ := h
  obtain ⟨-, rfl⟩ := List.append_eq_nil_iff.mp he.symm
  contradiction

theorem startsAfter_eq_false (h : IsName x) (hc : c ∈ x) : startsAfter (some c) = false := by
  obtain ⟨vendor, name, rfl, hv, hn⟩ := h
  rcases List.mem_append.mp hc with hc | hc
  · cases hv with
    | none => contradiction
    | named _ hl =>
      rcases List.mem_cons.mp hc with rfl | hc
      · decide
      · rcases List.mem_append.mp hc with hc | hc
        · exact startsAfter_of_isVendorLetter (hl c hc)
        · obtain rfl := List.mem_singleton.mp hc
          decide
  · exact startsAfter_of_calc hn hc

theorem plain (h : IsName x) : Parens.Plain x :=
  ⟨fun hm => absurd (h.startsAfter_eq_false hm) (by decide),
    fun hm => absurd (h.startsAfter_eq_false hm) (by decide)⟩

end IsName

end CustomProperties.Calc
