import CustomProperties.Text.Basic

/-! # ASCII letters

Letters as ranges of code points, and the characters that have no other lower case.
-/

namespace CustomProperties.Text

variable {c : Char}

theorem isUpper_iff : c.isUpper = true ↔ 65 ≤ c.toNat ∧ c.toNat ≤ 90 :=
  decide_eq_true_iff

theorem isLower_iff : c.isLower = true ↔ 97 ≤ c.toNat ∧ c.toNat ≤ 122 := by
  change (decide ('a'.val ≤ c.val) && decide (c.val ≤ 'z'.val)) = true ↔ _
  rw [Bool.and_eq_true, decide_eq_true_eq, decide_eq_true_eq]
  exact Iff.rfl

theorem isAlpha_iff : c.isAlpha = true ↔
    (65 ≤ c.toNat ∧ c.toNat ≤ 90) ∨ (97 ≤ c.toNat ∧ c.toNat ≤ 122) := by
  change (c.isUpper || c.isLower) = true ↔ _
  rw [Bool.or_eq_true, isUpper_iff, isLower_iff]

theorem isAlpha_of_isUpper (h : c.isUpper = true) : c.isAlpha = true :=
  isAlpha_iff.mpr (.inl (isUpper_iff.mp h))

theorem isAlpha_eq_false_iff : c.isAlpha = false ↔
    ¬((65 ≤ c.toNat ∧ c.toNat ≤ 90) ∨ (97 ≤ c.toNat ∧ c.toNat ≤ 122)) := by
  rw [← isAlpha_iff, Bool.not_eq_true]

theorem toLower_of_isUpper_eq_false (h : c.isUpper = false) : c.toLower = c :=
  dif_neg fun hc => absurd (isUpper_iff.mpr hc) (by rw [h]; decide)

theorem toLower_of_not_ascii (h : 128 ≤ c.toNat) : c.toLower = c := by
  refine toLower_of_isUpper_eq_false (eq_false_of_ne_true fun hu => ?_)
  have hz := (isUpper_iff.mp hu).2
  omega

end CustomProperties.Text
