import CustomProperties.Proofs.Text.Copy
import CustomProperties.Syntax.Char
import CustomProperties.Text.Word

/-! # Standardized texts

A standardized text is a copy of the text, in which line breaks and NUL are the pieces that
change. So a pattern without a line feed and the replacement character that stands in it stands in
the text too.
-/

namespace CustomProperties.Syntax

open Text (Copies)

/-- What line breaks and NUL become. -/
inductive Unifies : Text → Text → Prop

  | pair : Unifies ['\r', '\n'] ['\n']

  | lineBreak {c : Char} : c = '\r' ∨ c = '\x0C' → Unifies [c] ['\n']

  | nul : Unifies ['\x00'] ['\uFFFD']

variable {c : Char} {p t u x y piece other : Text}

theorem copies_standardizeOnto (done t : Text) :
    ∃ w, standardizeOnto done t = done.reverse ++ w ∧ Copies Unifies t w := by
  fun_induction standardizeOnto done t with
  | case1 done => exact ⟨[], (List.append_nil _).symm, .nil⟩
  | case2 done t ih =>
    obtain ⟨w, he, hc⟩ := ih
    exact ⟨'\n' :: w, by simp [he], .swap .pair hc⟩
  | case3 done c t _ d ih =>
    obtain ⟨w, he, hc⟩ := ih
    refine ⟨d :: w, by simp [he], ?_⟩
    unfold d
    split
    next hb => exact .swap (.lineBreak hb) hc
    next =>
      split
      next hn =>
        rw [hn]
        exact .swap .nul hc
      next => exact .keep c hc

theorem copies_standardize (t : Text) : Copies Unifies t (standardize t) := by
  obtain ⟨w, he, hc⟩ := copies_standardizeOnto [] t
  rwa [standardize, he]

theorem Unifies.eq (h : Unifies piece other) : other = ['\n'] ∨ other = ['\uFFFD'] := by
  cases h with
  | pair => exact .inl rfl
  | lineBreak => exact .inl rfl
  | nul => exact .inr rfl

theorem Unifies.not_mem (h : Unifies piece other) (hn : '\n' ∉ c :: p) (hr : '\uFFFD' ∉ c :: p) :
    c ∉ other ∧ ∃ d ∈ other.head?, d ∉ c :: p := by
  rcases h.eq with rfl | rfl
  · exact ⟨fun hm => hn (List.mem_singleton.mp hm ▸ List.mem_cons_self), _, rfl, hn⟩
  · exact ⟨fun hm => hr (List.mem_singleton.mp hm ▸ List.mem_cons_self), _, rfl, hr⟩

theorem infix_of_infix_standardize (hn : '\n' ∉ c :: p) (hr : '\uFFFD' ∉ c :: p)
    (h : c :: p <:+: standardize t) : c :: p <:+: t :=
  Copies.infix_of_infix (fun _ _ hu => hu.not_mem hn hr) (copies_standardize t) h

theorem mem_of_mem_standardize (hn : c ≠ '\n') (hr : c ≠ '\uFFFD') (h : c ∈ standardize t) :
    c ∈ t := by
  rcases (copies_standardize t).mem h with h | ⟨piece, other, hu, hc⟩
  · exact h
  · rcases hu.eq with rfl | rfl
    · exact absurd (List.mem_singleton.mp hc) hn
    · exact absurd (List.mem_singleton.mp hc) hr

/-- No word character becomes a line feed or the replacement character. -/
theorem isWord_head?_of_copies (h : Copies Unifies t u) (hu : u.head?.any Text.isWord = false) :
    t.head?.any Text.isWord = false := by
  cases h with
  | nil => rfl
  | keep c _ => exact hu
  | swap hs _ =>
    have hr : Text.isWord '\r' = false := by decide
    have hf : Text.isWord '\x0C' = false := by decide
    have hn : Text.isWord '\x00' = false := by decide
    cases hs with
    | pair => exact hr
    | lineBreak hb =>
      rcases hb with rfl | rfl
      · exact hr
      · exact hf
    | nul => exact hn

/-! ### Texts that are standard -/

/-- Every line break is a line feed, and no character is NUL. -/
def IsStandard (t : Text) : Prop := ∀ c ∈ t, c ≠ '\r' ∧ c ≠ '\x0C' ∧ c ≠ '\x00'

instance (t : Text) : Decidable (IsStandard t) :=
  inferInstanceAs (Decidable (∀ c ∈ t, c ≠ '\r' ∧ c ≠ '\x0C' ∧ c ≠ '\x00'))

namespace IsStandard

theorem nil : IsStandard [] := nofun

@[simp] theorem cons_iff :
    IsStandard (c :: t) ↔ (c ≠ '\r' ∧ c ≠ '\x0C' ∧ c ≠ '\x00') ∧ IsStandard t :=
  List.forall_mem_cons

@[simp] theorem append_iff : IsStandard (t ++ u) ↔ IsStandard t ∧ IsStandard u :=
  List.forall_mem_append

theorem append (ht : IsStandard t) (hu : IsStandard u) : IsStandard (t ++ u) :=
  append_iff.mpr ⟨ht, hu⟩

theorem of_subset (h : IsStandard t) (hs : u ⊆ t) : IsStandard u := fun c hc => h c (hs hc)

theorem of_suffix (h : IsStandard t) (hs : u <:+ t) : IsStandard u := h.of_subset hs.subset

theorem standardizeOnto_eq (h : IsStandard t) (done : Text) :
    standardizeOnto done t = done.reverse ++ t := by
  induction t generalizing done with
  | nil => rw [standardizeOnto, List.append_nil]
  | cons c t ih =>
    rw [cons_iff] at h
    obtain ⟨⟨hr, hf, hn⟩, ht⟩ := h
    have hs : standardizeOnto done (c :: t) = standardizeOnto (c :: done) t := by
      rw [standardizeOnto.eq_3 _ _ _ fun _ hc => absurd hc hr]
      simp [hr, hf, hn]
    rw [hs, ih ht]
    simp

theorem standardize_eq (h : IsStandard t) : standardize t = t := h.standardizeOnto_eq []

end IsStandard

theorem isStandard_standardize (t : Text) : IsStandard (standardize t) := by
  have ho (done t : Text) (h : IsStandard done) : IsStandard (standardizeOnto done t) := by
    fun_induction standardizeOnto done t with
    | case1 done => exact h.of_subset (List.reverse_subset.mpr (List.Subset.refl _))
    | case2 done t ih => exact ih (IsStandard.cons_iff.mpr ⟨by decide, h⟩)
    | case3 done c t _ d ih =>
      refine ih (IsStandard.cons_iff.mpr ⟨?_, h⟩)
      unfold d
      split
      next => decide
      next hb =>
        rw [not_or] at hb
        split
        next => decide
        next hn => exact ⟨hb.1, hb.2, hn⟩
  exact ho [] t .nil

end CustomProperties.Syntax
