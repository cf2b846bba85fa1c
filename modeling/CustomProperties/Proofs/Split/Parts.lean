import CustomProperties.Reference

/-! # Parts of a split

No cut leaves the text whole. After the only cut of a text comes a final part of it, as the
fallback of a reference is a final part of the body.
-/

namespace CustomProperties

namespace Split

theorem splitFrom_zero (separator : Text) (p : Position) (t : Text) :
    splitFrom separator p (some 0) t = [t] := by
  induction t generalizing p with
  | nil => rfl
  | cons c t ih => simp [splitFrom, ih]

/-- Whether no separator counts in a text and all that it opens, it closes. -/
def seals (separator : Text) : Position → Text → Bool
  | p, [] => p == start
  | p, c :: t => !cutsAt separator p c && seals separator (p.step c) t

theorem splitFrom_of_seals {separator t : Text} {p : Position} (h : seals separator p t = true)
    (limit : Option Nat) : splitFrom separator p limit t = [t] := by
  induction t generalizing p with
  | nil => rfl
  | cons c t ih =>
    simp only [seals, Bool.and_eq_true, Bool.not_eq_true'] at h
    rw [splitFrom, h.1, ih h.2]
    rfl

theorem seals_append {separator t u : Text} {p : Position} (ht : seals separator p t = true)
    (hu : seals separator start u = true) : seals separator p (t ++ u) = true := by
  induction t generalizing p with
  | nil =>
    obtain rfl : p = start := by simpa [seals] using ht
    exact hu
  | cons c t ih =>
    obtain ⟨hc, ht⟩ := Bool.and_eq_true_iff.mp ht
    exact Bool.and_eq_true_iff.mpr ⟨hc, ih ht⟩

/-- The only cut falls on the first separator that a sealed text leaves to be read. -/
theorem splitFrom_of_seals_append {t : Text} {c : Char} {p : Position}
    (h : seals [c] p t = true) (hc : cutsAt [c] start c = true) (rest : Text) :
    splitFrom [c] p (some 1) (t ++ c :: rest) = [t, rest] := by
  induction t generalizing p with
  | nil =>
    obtain rfl : p = start := by simpa [seals] using h
    rw [List.nil_append, splitFrom, hc]
    simp [splitFrom_zero]
  | cons d t ih =>
    simp only [seals, Bool.and_eq_true, Bool.not_eq_true'] at h
    rw [List.cons_append, splitFrom, h.1, ih h.2]
    rfl

theorem suffix_of_splitFrom_one {separator t name rest : Text} {p : Position} {others : List Text}
    (h : splitFrom separator p (some 1) t = name :: rest :: others) : rest <:+ t := by
  induction t generalizing p name with
  | nil => simp [splitFrom] at h
  | cons c t ih =>
    rw [splitFrom] at h
    split at h
    · simp only [Option.map_some, Nat.sub_self, splitFrom_zero, List.cons.injEq] at h
      obtain ⟨-, rfl, -⟩ := h
      exact List.suffix_cons c t
    · obtain ⟨first, parts, hs⟩ := List.exists_cons_of_ne_nil (splitFrom_ne_nil separator (p.step c)
        (some 1) t)
      rw [hs, List.modifyHead_cons, List.cons.injEq] at h
      obtain ⟨-, rfl⟩ := h
      exact (ih hs).trans (List.suffix_cons c t)

end Split

theorem Reference.fallback_suffix {body fallback : Text} {r : Reference}
    (h : ofBody? body = some r) (hf : r.fallback = some fallback) : fallback <:+ body := by
  unfold ofBody? at h
  split at h
  · contradiction
  · split at h
    · contradiction
    · cases h; contradiction
    · next hs =>
      cases h
      cases hf
      exact (List.dropWhile_suffix _).trans (Split.suffix_of_splitFrom_one hs)

end CustomProperties
