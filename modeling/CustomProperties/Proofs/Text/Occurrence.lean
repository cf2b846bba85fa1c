import CustomProperties.Text.Basic

/-! # Occurrences of a pattern

Cutting a text at the first occurrence of a pattern and looking for an occurrence agree. If the
first character of the pattern stands nowhere else in it, two occurrences cannot overlap, so what
comes before the first one is free of the pattern and the cut can be computed from its parts.
-/

namespace CustomProperties.Text

theorem breakOn_eq_none_iff {pattern t : Text} :
    breakOn pattern t = none ↔ occurs pattern t = false := by
  induction t with
  | nil => cases pattern <;> simp [breakOn, occurs]
  | cons c t ih =>
    rw [breakOn, occurs]
    cases h : dropPrefix? pattern (c :: t) with
    | some rest => simp
    | none => simp [ih]

theorem occurs_eq_false_iff {pattern t : Text} : occurs pattern t = false ↔ ¬ pattern <:+: t := by
  rw [← occurs_iff, Bool.not_eq_true]

section Marker

variable {p : Char} {ps : Text}

/-- An occurrence that reaches into a copy of the pattern would put its first character inside. -/
theorem dropPrefix?_eq_none (hp : p ∉ ps) {c : Char} {x y : Text}
    (h : occurs (p :: ps) (c :: x) = false) :
    dropPrefix? (p :: ps) (c :: x ++ (p :: ps ++ y)) = none := by
  rw [Option.eq_none_iff_forall_ne_some]
  intro rest hr
  have he := dropPrefix?_eq_some.mp hr
  rcases List.append_eq_append_iff.mp he with ⟨as, ha, hb⟩ | ⟨as, ha, -⟩
  · -- the whole occurrence lies before the copy unless `as` starts the copy
    cases as with
    | nil =>
      rw [List.append_nil] at ha
      exact occurs_eq_false_iff.mp h (ha ▸ List.infix_rfl)
    | cons a as =>
      obtain ⟨rfl, -⟩ : p = a ∧ _ := by simpa using hb
      obtain ⟨-, hps⟩ : p = c ∧ ps = x ++ p :: as := by simpa using ha
      exact hp (by simp [hps])
  · exact occurs_eq_false_iff.mp h ⟨[], as, by simpa using ha.symm⟩

theorem breakOn_of_not_occurs (hp : p ∉ ps) {x : Text} (y : Text)
    (h : occurs (p :: ps) x = false) :
    breakOn (p :: ps) (x ++ (p :: ps ++ y)) = some (x, y) := by
  induction x with
  | nil => simp [breakOn, dropPrefix?]
  | cons c x ih =>
    have hx : occurs (p :: ps) x = false := by
      rw [occurs, Bool.or_eq_false_iff] at h
      exact h.2
    rw [List.cons_append, breakOn, ← List.cons_append, dropPrefix?_eq_none hp h, ih hx]
    rfl

theorem not_occurs_of_breakOn {t before after : Text}
    (h : breakOn (p :: ps) t = some (before, after)) : occurs (p :: ps) before = false := by
  induction t generalizing before with
  | nil => simp [breakOn] at h
  | cons c t ih =>
    rw [breakOn] at h
    split at h
    next => cases h; simp [occurs]
    next hd =>
      obtain ⟨⟨b, a⟩, hb, he⟩ := Option.map_eq_some_iff.mp h
      cases he
      rw [occurs, ih hb, Bool.or_false, Option.isSome_eq_false_iff, Option.isNone_iff_eq_none,
        Option.eq_none_iff_forall_ne_some]
      intro rest hr
      have ht : c :: t = p :: ps ++ (rest ++ (p :: ps) ++ after) := by
        rw [breakOn_append hb, ← List.cons_append, ← List.cons_append, dropPrefix?_eq_some.mp hr]
        simp
      rw [ht, dropPrefix?_append] at hd
      contradiction

end Marker

/-- A pattern occurs across a seam only if a part of it ends the left text and the rest of it
starts the right one. -/
theorem occurs_append_eq_false {pattern x y : Text} (hx : occurs pattern x = false)
    (hy : occurs pattern y = false)
    (h : ∀ u w, u ≠ [] → w ≠ [] → pattern = u ++ w → u <:+ x → ¬ w <+: y) :
    occurs pattern (x ++ y) = false := by
  rw [occurs_eq_false_iff] at hx hy ⊢
  rw [List.infix_append_iff_ne_nil]
  rintro (hi | hi | ⟨u, w, hu, hw, he, hs, hp⟩)
  · exact hx hi
  · exact hy hi
  · exact h u w hu hw he hs hp

end CustomProperties.Text
