import CustomProperties.Proofs.Parens.Balance
import CustomProperties.Proofs.Text.Occurrence
import CustomProperties.Reference

/-! # Delimited texts

A text is delimited when all its references are closed and no letter touches one of them. Parts of
it that begin or end at a reference are delimited too, and what is put in the place of a reference
cannot form a new one together with the text around it.
-/

namespace CustomProperties

/-- The reference whose opening stands between `previous` and `after` is closed, has no letter on
either side and no parenthesis right after it. -/
structure Reference.Detached (previous : Option Char) (after : Text) : Prop where
  before : ∀ c ∈ previous, c.isAlpha = false
  closed : (Parens.group after).closed = true
  behind : ∀ c ∈ (Parens.group after).rest.head?, c.isAlpha = false ∧ c ≠ '('

instance (previous : Option Char) (after : Text) :
    Decidable (Reference.Detached previous after) :=
  decidable_of_iff (previous.all (!·.isAlpha) = true ∧ (Parens.group after).closed = true ∧
      (Parens.group after).rest.head?.all (fun c => !c.isAlpha && c != '(') = true) <| by
    simp only [Option.all_eq_true, Bool.and_eq_true, Bool.not_eq_true', bne_iff_ne]
    exact ⟨fun ⟨h₁, h₂, h₃⟩ => ⟨h₁, h₂, h₃⟩, fun ⟨h₁, h₂, h₃⟩ => ⟨h₁, h₂, h₃⟩⟩

def Delimited (t : Text) : Prop :=
  ∀ before after, t = before ++ (Reference.opening ++ after) →
    Reference.Detached before.getLast? after

namespace Delimited

def scan (previous : Option Char) : Text → Bool
  | [] => true
  | c :: t =>
    (match Text.dropPrefix? Reference.opening (c :: t) with
      | some after => decide (Reference.Detached previous after)
      | none => true) && scan (some c) t

theorem scan_iff {previous : Option Char} {t : Text} :
    scan previous t = true ↔ ∀ before after, t = before ++ (Reference.opening ++ after) →
      Reference.Detached (before.getLast?.or previous) after := by
  induction t generalizing previous with
  | nil => simp [scan, Reference.opening]
  | cons c t ih =>
    rw [scan, Bool.and_eq_true, ih]
    constructor
    · rintro ⟨h, hs⟩ before after he
      cases before with
      | nil =>
        rw [List.nil_append] at he
        simpa [Text.dropPrefix?_eq_some.mpr he] using h
      | cons d before =>
        obtain ⟨rfl, ht⟩ := List.cons.inj he
        have hd := hs before after ht
        cases before <;> simpa [List.getLast?_cons] using hd
    · intro h
      constructor
      · split
        next after he => simpa using h [] after (by simpa using Text.dropPrefix?_eq_some.mp he)
        next => rfl
      · intro before after he
        have hd := h (c :: before) after (by rw [he]; rfl)
        cases before <;> simpa [List.getLast?_cons] using hd

instance (t : Text) : Decidable (Delimited t) :=
  decidable_of_iff (scan none t = true) (by simp [scan_iff, Delimited])

theorem of_suffix {t u : Text} (h : Delimited t) (hs : u <:+ t) : Delimited u := by
  obtain ⟨x, rfl⟩ := hs
  intro before after he
  have hd := h (x ++ before) after (by rw [he, List.append_assoc])
  refine ⟨fun c hc => hd.before c ?_, hd.closed, hd.behind⟩
  rw [List.getLast?_append]
  simp_all

/-- A final part of the body of a group has all its references to itself. -/
theorem of_body {body rest f : Text} (h : Delimited (body ++ ')' :: rest))
    (hb : Parens.balanced 0 body = true) (hf : f <:+ body) : Delimited f := by
  obtain ⟨x, rfl⟩ := hf
  intro before after he
  have ho : Parens.balanced 0 (x ++ before ++ ['v', 'a', 'r'] ++ '(' :: after) = true := by
    simpa [he, Reference.opening] using hb
  have hc : (Parens.group after).closed = true := Parens.closed_of_balanced ho
  have hd := h (x ++ before) (after ++ ')' :: rest) (by simp [he])
  refine ⟨fun c hm => hd.before c ?_, hc, fun c hm => hd.behind c ?_⟩
  · rw [List.getLast?_append]
    simp_all
  · rw [Parens.group, Parens.close_append hc, List.head?_append]
    simp_all [Parens.group]

end Delimited

namespace Reference

/-- What ends the left text or what starts the right one stands in no opening of a reference. -/
def Apart (x y : Text) : Prop :=
  (∀ c ∈ x.getLast?, c.isAlpha = false) ∨ ∀ c ∈ y.head?, c.isAlpha = false ∧ c ≠ '('

theorem letters_of_opening_eq {u w : Text} (hu : u ≠ []) (hw : w ≠ []) (h : opening = u ++ w) :
    (∃ c ∈ u.getLast?, c.isAlpha = true) ∧ ∃ c ∈ w.head?, c.isAlpha = true ∨ c = '(' := by
  rcases u with _ | ⟨u₁, _ | ⟨u₂, _ | ⟨u₃, u⟩⟩⟩
  · exact absurd rfl hu
  all_goals simp [opening] at h
  · obtain ⟨rfl, rfl⟩ := h
    exact ⟨⟨'v', rfl, rfl⟩, 'a', rfl, .inl rfl⟩
  · obtain ⟨rfl, rfl, rfl⟩ := h
    exact ⟨⟨'a', rfl, rfl⟩, 'r', rfl, .inl rfl⟩
  · obtain ⟨rfl, rfl, rfl, h⟩ := h
    cases u with
    | nil =>
      obtain rfl : w = ['('] := by simpa using h.symm
      exact ⟨⟨'r', rfl, rfl⟩, '(', rfl, .inr rfl⟩
    | cons => simp_all

theorem occursIn_append {x y : Text} (hx : occursIn x = false) (hy : occursIn y = false)
    (h : Apart x y) : occursIn (x ++ y) = false := by
  refine Text.occurs_append_eq_false hx hy fun u w hu hw he hs hp => ?_
  obtain ⟨⟨c, hc, hl⟩, d, hd, hr⟩ := letters_of_opening_eq hu hw he
  obtain ⟨x', rfl⟩ := hs
  obtain ⟨y', rfl⟩ := hp
  rcases h with h | h
  · have := h c (by rw [List.getLast?_append]; simp_all)
    simp_all
  · have := h d (by rw [List.head?_append]; simp_all)
    simp_all

end Reference

end CustomProperties
