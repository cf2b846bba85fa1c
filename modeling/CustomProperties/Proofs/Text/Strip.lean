import CustomProperties.Text.Word
import Mathlib.Data.List.TakeWhile

/-! # Stripped texts

Stripping takes blanks off both ends of a text. What is left is a part of it, and no blank is a
word character.
-/

namespace CustomProperties.Text

theorem head?_dropWhile {α : Type} (p : α → Bool) (as : List α) :
    (as.dropWhile p).head?.any p = false := by
  have hh := List.head?_dropWhile_not p as
  cases hd : as.dropWhile p with
  | nil => rfl
  | cons a rest =>
    rw [hd] at hh
    exact hh

theorem exists_of_strip (t : Text) :
    ∃ before after, t = before ++ (strip t ++ after) ∧ ∀ c ∈ before ++ after, isBlank c = true := by
  have hr (t : Text) : t = stripRight t ++ (t.reverse.takeWhile isBlank).reverse := by
    rw [stripRight, ← List.reverse_append, List.takeWhile_append_dropWhile, List.reverse_reverse]
  have hl : t.takeWhile isBlank ++ stripLeft t = t := List.takeWhile_append_dropWhile
  have hb (t : Text) : ∀ c ∈ t.takeWhile isBlank, isBlank c = true :=
    List.all_eq_true.mp List.all_takeWhile
  refine ⟨t.takeWhile isBlank, ((stripLeft t).reverse.takeWhile isBlank).reverse, ?_, fun c hc => ?_⟩
  · rw [strip, ← hr, hl]
  · rcases List.mem_append.mp hc with hc | hc
    · exact hb t c hc
    · exact hb _ c (List.mem_reverse.mp hc)

theorem infix_strip (t : Text) : strip t <:+: t := by
  obtain ⟨before, after, ht, -⟩ := exists_of_strip t
  exact ⟨before, after, by rw [List.append_assoc]; exact ht.symm⟩

theorem stripRight_append_of_blank (t : Text) {gap : Text} (h : ∀ c ∈ gap, isBlank c = true) :
    stripRight (t ++ gap) = stripRight t := by
  rw [stripRight, List.reverse_append, List.dropWhile_append_of_pos (by simpa using h), stripRight]

theorem strip_append_of_blank (t : Text) {gap : Text} (h : ∀ c ∈ gap, isBlank c = true) :
    strip (t ++ gap) = strip t := by
  rw [strip, strip, stripLeft, stripLeft, List.dropWhile_append]
  split
  next he =>
    rw [List.isEmpty_iff.mp he, List.dropWhile_eq_nil_iff.mpr h]
  next => exact stripRight_append_of_blank _ h

theorem strip_blank_append {gap : Text} (h : ∀ c ∈ gap, isBlank c = true) (t : Text) :
    strip (gap ++ t) = strip t := by
  rw [strip, strip, stripLeft, stripLeft, List.dropWhile_append_of_pos h]

theorem prefix_strip_append {t : Text} (ht : t ≠ []) (hb : ∀ c ∈ t, isBlank c = false) (u : Text) :
    t <+: strip (t ++ u) := by
  have hl : stripLeft (t ++ u) = t ++ u := by
    obtain ⟨c, t, rfl⟩ := List.exists_cons_of_ne_nil ht
    exact List.dropWhile_cons_of_neg (by simp [hb])
  have hr : t.reverse.dropWhile isBlank = t.reverse := by
    obtain ⟨c, r, hc⟩ := List.exists_cons_of_ne_nil (List.reverse_ne_nil_iff.mpr ht)
    have hm : c ∈ t := List.mem_reverse.mp (hc ▸ List.mem_cons_self)
    rw [hc]
    exact List.dropWhile_cons_of_neg (by simp [hb c hm])
  rw [strip, hl, stripRight, List.reverse_append, List.dropWhile_append]
  split
  next => exact ⟨[], by rw [hr, List.reverse_reverse, List.append_nil]⟩
  next =>
    rw [List.reverse_append, List.reverse_reverse]
    exact List.prefix_append ..

theorem stripRight_concat {c : Char} (h : isBlank c = false) (t : Text) :
    stripRight (t ++ [c]) = t ++ [c] := by
  rw [stripRight, List.reverse_concat, List.dropWhile_cons_of_neg (by simp [h]),
    ← List.reverse_concat, List.reverse_reverse]

theorem getLast?_strip_concat {c : Char} (h : isBlank c = false) (t : Text) :
    (strip (t ++ [c])).getLast? = some c := by
  have hs : stripLeft (t ++ [c]) = t.dropWhile isBlank ++ [c] := by
    rw [stripLeft, List.dropWhile_append]
    split
    next he =>
      rw [List.isEmpty_iff.mp he, List.dropWhile_cons_of_neg (by simp [h])]
      rfl
    next => rfl
  rw [strip, hs, stripRight_concat h, List.getLast?_concat]

theorem firm_strip (t : Text) :
    (strip t).head?.any isBlank = false ∧ (strip t).getLast?.any isBlank = false := by
  constructor
  · have hp : strip t <+: stripLeft t := by
      rw [strip, stripRight, ← List.reverse_reverse (stripLeft t), List.reverse_reverse,
        List.reverse_prefix]
      exact List.dropWhile_suffix _
    have hl := head?_dropWhile isBlank t
    obtain ⟨u, hu⟩ := hp
    cases hs : strip t with
    | nil => rfl
    | cons c s =>
      change (stripLeft t).head?.any isBlank = false at hl
      rw [← hu, hs] at hl
      exact hl
  · rw [strip, stripRight, List.getLast?_reverse]
    exact head?_dropWhile isBlank _

theorem strip_eq_self {t : Text} (hh : t.head?.any isBlank = false)
    (hl : t.getLast?.any isBlank = false) : strip t = t := by
  have hd {u : Text} (h : u.head?.any isBlank = false) : u.dropWhile isBlank = u := by
    cases u with
    | nil => rfl
    | cons c u => exact List.dropWhile_cons_of_neg (by simpa using h)
  rw [strip, stripLeft, hd hh, stripRight, hd (by rwa [List.head?_reverse]), List.reverse_reverse]

def blankCodes : List Nat :=
  [0x09, 0x0A, 0x0B, 0x0C, 0x0D, 0x1C, 0x1D, 0x1E, 0x1F, 0x20, 0x85, 0xA0, 0x1680, 0x2000, 0x2001,
   0x2002, 0x2003, 0x2004, 0x2005, 0x2006, 0x2007, 0x2008, 0x2009, 0x200A, 0x2028, 0x2029, 0x202F,
   0x205F, 0x3000]

theorem toNat_mem_blankCodes {c : Char} (h : isBlank c = true) : c.toNat ∈ blankCodes := by
  simp only [isBlank, Bool.or_eq_true, Bool.and_eq_true, decide_eq_true_eq, beq_iff_eq] at h
  simp only [blankCodes, List.mem_cons, List.not_mem_nil, or_false]
  omega

theorem isWord_of_isBlank {c : Char} (h : isBlank c = true) : isWord c = false := by
  have hb : ∀ n ∈ blankCodes, isWord (Char.ofNat n) = false := by decide +kernel
  have hc := hb _ (toNat_mem_blankCodes h)
  rwa [Char.ofNat_toNat] at hc

end CustomProperties.Text
