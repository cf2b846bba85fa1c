import CustomProperties.Proofs.Sheet.SpelledRules
import CustomProperties.Proofs.Syntax.Written

/-! # Keywords of rules that are read

A keyword that a rule is known by consists of its vendor part and its own name, both in small
letters. So it needs no escapes and is known again when it is read back.
-/

namespace CustomProperties

open Syntax

namespace Sheet

def isKeywordChar (c : Char) : Bool := ('a' ≤ c && c ≤ 'z') || c == '-'

theorem of_isKeywordChar {q : Char → Bool} (h : ∀ n < 128, isKeywordChar (Char.ofNat n) = true →
    q (Char.ofNat n) = true) {c : Char} (hc : isKeywordChar c = true) : q c = true := by
  have hlt : c.toNat < 128 := by
    simp only [isKeywordChar, Bool.or_eq_true, Bool.and_eq_true, decide_eq_true_eq, beq_iff_eq] at hc
    rcases hc with ⟨-, hz⟩ | rfl
    · have hz' : c.toNat ≤ 122 := hz
      omega
    · decide
  have hn := h c.toNat hlt
  rw [Char.ofNat_toNat] at hn
  exact hn hc

/-- A keyword without escapes, which is in small letters. -/
structure IsPlainKeyword (keyword : Text) : Prop where
  chars : ∀ c ∈ keyword, isKeywordChar c = true
  starts : ∃ c rest, isNameStart c = true ∧ (keyword = c :: rest ∨ keyword = '-' :: c :: rest)

namespace IsPlainKeyword

variable {keyword : Text}

theorem standard (h : IsPlainKeyword keyword) : IsStandard keyword := fun c hc => by
  have hs := of_isKeywordChar (q := fun c => c != '\r' && c != '\x0C' && c != '\x00')
    (by decide +kernel) (h.chars c hc)
  simpa [and_assoc] using hs

theorem ne_nil (h : IsPlainKeyword keyword) : keyword ≠ [] := by
  obtain ⟨c, rest, -, rfl | rfl⟩ := h.starts <;> exact List.cons_ne_nil _ _

theorem lowerAscii_eq (h : IsPlainKeyword keyword) : Text.lowerAscii keyword = keyword := by
  have hl : ∀ c ∈ keyword, c.toLower = id c := fun c hc => by
    simpa using of_isKeywordChar (q := fun c => c.toLower == c) (by decide +kernel) (h.chars c hc)
  rw [Text.lowerAscii, List.map_congr_left hl, List.map_id]

theorem writeName_eq {t : Text} (h : ∀ c ∈ t, isKeywordChar c = true) : writeName t = t := by
  induction t with
  | nil => rfl
  | cons c t ih =>
    obtain ⟨hc, ht⟩ := List.forall_mem_cons.mp h
    have hn : writeNameChar c = [c] :=
      if_pos (of_isKeywordChar (q := isNameChar) (by decide +kernel) hc)
    rw [writeName, List.flatMap_cons, hn]
    exact congrArg (c :: ·) (ih ht)

theorem writeIdent_eq (h : IsPlainKeyword keyword) : writeIdent keyword = keyword := by
  obtain ⟨hc, c, rest, hs, rfl | rfl⟩ := h
  · have hne : c ≠ '-' := by
      rintro rfl
      contradiction
    have hw : writeIdent (c :: rest) = writeNameStart c ++ writeName rest :=
      writeIdent.eq_4 c rest (fun he _ => hne he) (fun _ he _ => hne he) (fun _ _ he _ => hne he)
    rw [hw, writeName_eq (List.forall_mem_cons.mp hc).2, writeNameStart, if_pos hs]
    rfl
  · have hne : c ≠ '-' := by
      rintro rfl
      contradiction
    have hw : writeIdent ('-' :: c :: rest) = '-' :: writeNameStart c ++ writeName rest :=
      writeIdent.eq_3 c rest hne
    have hrest := (List.forall_mem_cons.mp (List.forall_mem_cons.mp hc).2).2
    rw [hw, writeName_eq hrest, writeNameStart, if_pos hs]
    rfl

end IsPlainKeyword

/-! ### Vendor parts -/

theorem onlyLine?_eq {t line : Text} (h : '\n' ∉ t) (ht : onlyLine? t = some line) : line = t := by
  have hall : t.takeWhile (· ≠ '\n') = t :=
    List.takeWhile_eq_self_iff.mpr fun c hc => by
      have hne : c ≠ '\n' := fun he => h (he ▸ hc)
      simpa using hne
  unfold onlyLine? at ht
  dsimp only at ht
  split at ht
  next =>
    rw [hall] at ht
    exact (Option.some.inj ht).symm
  next => contradiction

def IsVendor (vendor : Text) : Prop :=
  vendor = [] ∨ ∃ c letters, (∀ d ∈ c :: letters, ('a' ≤ d && d ≤ 'z') = true) ∧
    vendor = '-' :: c :: (letters ++ ['-'])

theorem of_vendorPart? {t vendor rest : Text} (h : vendorPart? t = some (vendor, rest)) :
    IsVendor vendor ∧ t = vendor ++ rest := by
  unfold vendorPart? at h
  split at h
  next t =>
    dsimp only at h
    split at h
    next rest' hd =>
      split at h
      next => contradiction
      next hne =>
        cases h
        obtain ⟨c, letters, hl⟩ := List.exists_cons_of_ne_nil hne
        have ht := List.take_append_drop (t.takeWhile fun c => 'a' ≤ c && c ≤ 'z').length t
        have hp := List.prefix_iff_eq_take.mp
          (List.takeWhile_prefix (l := t) fun c => 'a' ≤ c && c ≤ 'z')
        rw [hd, ← hp] at ht
        refine ⟨.inr ⟨c, letters, ?_, by rw [hl]; rfl⟩, ?_⟩
        · rw [← hl]
          exact List.all_eq_true.mp List.all_takeWhile
        · simp only [List.cons_append, List.append_assoc]
          exact congrArg ('-' :: ·) ht.symm
    next => contradiction
  next => contradiction

theorem of_splitVendor {keyword vendor name : Text} (hn : '\n' ∉ keyword)
    (h : splitVendor keyword = (vendor, name)) : IsVendor vendor ∧ keyword = vendor ++ name := by
  have hwhole : (onlyLine? keyword).getD keyword = keyword := by
    cases ho : onlyLine? keyword with
    | none => rfl
    | some line => exact onlyLine?_eq hn ho
  unfold splitVendor at h
  dsimp only at h
  rw [hwhole] at h
  split at h
  next =>
    cases h
    exact ⟨.inl rfl, rfl⟩
  next v rest hv =>
    obtain ⟨hvendor, rfl⟩ := of_vendorPart? hv
    split at h
    next line hl =>
      cases h
      rw [onlyLine?_eq (fun hm => hn (List.mem_append_right _ hm)) hl]
      exact ⟨hvendor, rfl⟩
    next =>
      cases h
      exact ⟨.inl rfl, rfl⟩

/-! ### Keywords of known rules -/

theorem isPlainKeyword_append {vendor name : Text} (hv : IsVendor vendor)
    (hc : ∀ c ∈ name, isKeywordChar c = true)
    (hs : ∃ c rest, isNameStart c = true ∧ name = c :: rest) : IsPlainKeyword (vendor ++ name) := by
  rcases hv with rfl | ⟨c, letters, hl, rfl⟩
  · obtain ⟨c, rest, hn, rfl⟩ := hs
    exact ⟨hc, c, rest, hn, .inl rfl⟩
  · have hletter : ∀ d ∈ c :: letters, isKeywordChar d = true := fun d hd => by
      rw [isKeywordChar, hl d hd, Bool.true_or]
    refine ⟨?_, c, letters ++ ['-'] ++ name, ?_, .inr (by simp)⟩
    · simp only [List.forall_mem_append, List.forall_mem_cons] at hletter ⊢
      exact ⟨⟨by decide, hletter.1, hletter.2, by decide, nofun⟩, hc⟩
    · have hstart := of_isKeywordChar (q := fun c => isNameStart c || c == '-') (by decide +kernel)
        (hletter c List.mem_cons_self)
      have hne : c ≠ '-' := by
        rintro rfl
        exact absurd (hl '-' List.mem_cons_self) (by decide)
      simpa [hne] using hstart

theorem of_isKnownName {name : Text} (h : name = keyframesKeyword ∨ name ∈ containerNames) :
    (∀ c ∈ name, isKeywordChar c = true) ∧ ∃ c rest, isNameStart c = true ∧ name = c :: rest := by
  have hall : ∀ name ∈ keyframesKeyword :: containerNames, name.all isKeywordChar = true ∧
      name.head?.any isNameStart = true := by decide +kernel
  obtain ⟨hc, hs⟩ := hall name (List.mem_cons.mpr h)
  refine ⟨List.all_eq_true.mp hc, ?_⟩
  cases name with
  | nil => contradiction
  | cons c rest => exact ⟨c, rest, hs, rfl⟩

theorem of_role_keyframes {keyword vendor : Text} (h : Role.ofKeyword keyword = .keyframes vendor) :
    splitVendor keyword = (vendor, keyframesKeyword) := by
  unfold Role.ofKeyword at h
  dsimp only at h
  split at h
  next hk =>
    cases h
    exact Prod.ext rfl hk
  next => split at h <;> first | contradiction | (split at h <;> contradiction)

theorem of_role_container {keyword : Text} (h : Role.ofKeyword keyword = .container) :
    (splitVendor keyword).2 ∈ containerNames := by
  unfold Role.ofKeyword at h
  dsimp only at h
  split at h
  next => contradiction
  next =>
    split at h
    next => contradiction
    next =>
      split at h
      next hk => exact hk
      next => contradiction

theorem of_keyframes {keyword vendor : Text} (hn : '\n' ∉ keyword)
    (h : Role.ofKeyword keyword = .keyframes vendor) :
    keyword = vendor ++ keyframesKeyword ∧ IsPlainKeyword keyword := by
  obtain ⟨hv, rfl⟩ := of_splitVendor hn (of_role_keyframes h)
  obtain ⟨hc, hs⟩ := of_isKnownName (.inl rfl)
  exact ⟨rfl, isPlainKeyword_append hv hc hs⟩

theorem isPlainKeyword_of_container {keyword : Text} (hn : '\n' ∉ keyword)
    (h : Role.ofKeyword keyword = .container) : IsPlainKeyword keyword := by
  obtain ⟨hv, he⟩ := of_splitVendor hn rfl
  obtain ⟨hc, hs⟩ := of_isKnownName (.inr (of_role_container h))
  rw [he]
  exact isPlainKeyword_append hv hc hs

theorem not_mem_lowerAscii {t : Text} (h : '\n' ∉ t) : '\n' ∉ Text.lowerAscii t := by
  intro hm
  obtain ⟨c, hc, hl⟩ := List.mem_map.mp hm
  have hall : ∀ n < 128, (Char.ofNat n).toLower = '\n' → Char.ofNat n = '\n' := by decide +kernel
  have hcn : c = '\n' := by
    by_cases hlt : c.toNat < 128
    · have hn := hall c.toNat hlt
      rw [Char.ofNat_toNat] at hn
      exact hn hl
    · rwa [Text.toLower_of_not_ascii (Nat.le_of_not_lt hlt)] at hl
  exact h (hcn ▸ hc)

end Sheet

end CustomProperties
