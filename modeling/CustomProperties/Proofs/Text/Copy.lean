import CustomProperties.Text.Basic
import Mathlib.Data.List.Basic

/-! # Copies with swapped pieces

A copy of a text keeps its characters in order, except that some pieces are swapped for other
texts. A pattern that no swapped-in text can be part of stands in the copy only where it stands in
the text itself.
-/

namespace CustomProperties.Text

/-- The second text is the first one with some pieces swapped. -/
inductive Copies (swap : Text → Text → Prop) : Text → Text → Prop

  | nil : Copies swap [] []

  | keep (c : Char) {s w : Text} : Copies swap s w → Copies swap (c :: s) (c :: w)

  | swap {piece other s w : Text} : swap piece other → Copies swap s w →
      Copies swap (piece ++ s) (other ++ w)

namespace Copies

variable {swap : Text → Text → Prop} {piece other p s s' w w' x y : Text}

theorem refl (t : Text) : Copies swap t t := by
  induction t with
  | nil => exact nil
  | cons c t ih => exact keep c ih

theorem of_swap (h : swap piece other) : Copies swap piece other := by
  have hc := nil.swap h
  rwa [List.append_nil, List.append_nil] at hc

theorem insert (h : swap [] other) (hc : Copies swap s w) : Copies swap s (other ++ w) :=
  hc.swap h

theorem append (h : Copies swap s w) (h' : Copies swap s' w') :
    Copies swap (s ++ s') (w ++ w') := by
  induction h with
  | nil => exact h'
  | keep c _ ih => exact ih.keep c
  | swap hs _ ih =>
    rw [List.append_assoc, List.append_assoc]
    exact ih.swap hs

theorem flatMap {f : Char → Text} (h : ∀ c, Copies swap [c] (f c)) (t : Text) :
    Copies swap t (t.flatMap f) := by
  induction t with
  | nil => exact nil
  | cons c t ih =>
    rw [List.flatMap_cons]
    exact (h c).append ih

theorem mem {c : Char} (h : Copies swap s w) (hc : c ∈ w) :
    c ∈ s ∨ ∃ piece other, swap piece other ∧ c ∈ other := by
  induction h with
  | nil => contradiction
  | keep d _ ih =>
    rcases List.mem_cons.mp hc with rfl | hc
    · exact .inl List.mem_cons_self
    · exact (ih hc).imp_left (List.mem_cons_of_mem d)
  | swap hs _ ih =>
    rcases List.mem_append.mp hc with hc | hc
    · exact .inr ⟨_, _, hs, hc⟩
    · exact (ih hc).imp_left (List.mem_append_right _)

theorem eq_of_forall (h : Copies swap s w)
    (hs : ∀ piece other, swap piece other → ∃ c ∈ other, c ∉ w) : s = w := by
  induction h with
  | nil => rfl
  | keep c _ ih =>
    refine congrArg (List.cons c) (ih fun piece other hp => ?_)
    obtain ⟨d, hd, hw⟩ := hs piece other hp
    exact ⟨d, hd, fun hm => hw (List.mem_cons_of_mem c hm)⟩
  | swap hp =>
    obtain ⟨d, hd, hw⟩ := hs _ _ hp
    exact absurd (List.mem_append_left _ hd) hw

theorem exists_of_append (hs : ∀ piece other, swap piece other → ∃ c ∈ other.head?, c ∉ p)
    (h : Copies swap s (p ++ y)) : ∃ y', s = p ++ y' ∧ Copies swap y' y := by
  induction p generalizing s with
  | nil => exact ⟨s, rfl, h⟩
  | cons c p ih =>
    have hs' : ∀ piece other, swap piece other → ∃ c ∈ other.head?, c ∉ p := by
      intro piece other hp
      obtain ⟨d, hd, hn⟩ := hs piece other hp
      exact ⟨d, hd, fun hm => hn (List.mem_cons_of_mem c hm)⟩
    rw [List.cons_append] at h
    generalize hw : c :: (p ++ y) = w at h
    cases h with
    | nil => contradiction
    | keep d h =>
      cases hw
      obtain ⟨y', rfl, hy⟩ := ih hs' h
      exact ⟨y', rfl, hy⟩
    | swap hp h =>
      obtain ⟨d, hd, hn⟩ := hs _ _ hp
      obtain ⟨other, rfl⟩ := List.head?_eq_some_iff.mp hd
      obtain rfl : c = d := (List.cons.inj hw).1
      exact absurd List.mem_cons_self hn

/-- A pattern in the copy stands in the text at the same place, if moreover no swapped-in text has
the first character of it. -/
theorem exists_of_infix {c : Char}
    (hs : ∀ piece other, swap piece other → c ∉ other ∧ ∃ d ∈ other.head?, d ∉ c :: p)
    (h : Copies swap s (x ++ (c :: p ++ y))) :
    ∃ x' y', s = x' ++ (c :: p ++ y') ∧ Copies swap y' y := by
  have hp := fun piece other h => (hs piece other h).2
  generalize hw : x ++ (c :: p ++ y) = w at h
  induction h generalizing x with
  | nil => simp at hw
  | keep d h ih =>
    cases x with
    | nil =>
      obtain ⟨y', he, hy⟩ := exists_of_append hp (hw ▸ h.keep d)
      exact ⟨[], y', he, hy⟩
    | cons e x =>
      cases hw
      obtain ⟨x', y', rfl, hy⟩ := ih rfl
      exact ⟨d :: x', y', rfl, hy⟩
  | @swap piece other s w hsw h ih =>
    have hi : ∀ x, x ++ (c :: p ++ y) = w →
        ∃ x' y', piece ++ s = x' ++ (c :: p ++ y') ∧ Copies swap y' y := by
      intro x hx
      obtain ⟨x', y', rfl, hy⟩ := ih hx
      exact ⟨piece ++ x', y', (List.append_assoc ..).symm, hy⟩
    rcases List.append_eq_append_iff.mp hw with ⟨a, rfl, ha⟩ | ⟨a, rfl, ha⟩
    · cases a with
      | nil => exact hi [] ha
      | cons d a =>
        obtain rfl : c = d := (List.cons.inj ha).1
        exact absurd (by simp) (hs _ _ hsw).1
    · exact hi a ha.symm

theorem infix_of_infix {c : Char}
    (hs : ∀ piece other, swap piece other → c ∉ other ∧ ∃ d ∈ other.head?, d ∉ c :: p)
    (h : Copies swap s w) (hi : c :: p <:+: w) : c :: p <:+: s := by
  obtain ⟨x, y, rfl⟩ := hi
  rw [List.append_assoc] at h
  obtain ⟨x', y', rfl, -⟩ := exists_of_infix hs h
  exact ⟨x', y', List.append_assoc ..⟩

end Copies

end CustomProperties.Text
