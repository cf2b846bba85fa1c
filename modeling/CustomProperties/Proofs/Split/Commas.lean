import CustomProperties.Proofs.Split.Parts
import CustomProperties.Proofs.Text.Strip

/-! # Lists written with commas

A text is its parts with the separators between them. So a list with one part is this part, with
nothing but blanks and commas around it. Parts that are sealed are found again in the text that is
made of them, and so is a last part that is not. So a list that is written is read again as it was.
-/

namespace CustomProperties.Split

theorem intercalate_modifyHead (separator : Text) (c : Char) {parts : List Text} (h : parts ≠ []) :
    separator.intercalate (parts.modifyHead (c :: ·)) = c :: separator.intercalate parts := by
  obtain ⟨part, parts, rfl⟩ := List.exists_cons_of_ne_nil h
  cases parts with
  | nil => rfl
  | cons next parts =>
    rw [List.modifyHead_cons, List.intercalate_cons_cons, List.intercalate_cons_cons]
    rfl

theorem intercalate_splitFrom (separator : Text) (p : Position) (limit : Option Nat) (t : Text) :
    separator.intercalate (splitFrom separator p limit t) = t := by
  induction t generalizing p limit with
  | nil => rfl
  | cons c t ih =>
    rw [splitFrom]
    split
    next hc =>
      have hs : [c] = separator := by
        simp only [cutsAt, Bool.and_eq_true, beq_iff_eq] at hc
        exact hc.1.2
      obtain ⟨part, parts, hp⟩ := List.exists_cons_of_ne_nil
        (splitFrom_ne_nil separator p (limit.map (· - 1)) t)
      rw [hp, List.intercalate_cons_cons, ← hp, ih, List.nil_append, ← hs]
      rfl
    next => rw [intercalate_modifyHead separator c (splitFrom_ne_nil _ _ _ _), ih]

def IsPadding (t : Text) : Prop := ∀ c ∈ t, Text.isBlank c = true ∨ c = ','

theorem isPadding_append {t u : Text} : IsPadding (t ++ u) ↔ IsPadding t ∧ IsPadding u :=
  List.forall_mem_append

theorem IsPadding.isWord_head? {t u : Text} (h : IsPadding t)
    (hu : u.head?.any Text.isWord = false) : (t ++ u).head?.any Text.isWord = false := by
  cases t with
  | nil => exact hu
  | cons c t =>
    rcases h c List.mem_cons_self with hb | rfl
    · exact Text.isWord_of_isBlank hb
    · have hw : Text.isWord ',' = false := by decide
      exact hw

theorem IsPadding.not_mem {t : Text} {c : Char} (h : IsPadding t) (hb : Text.isBlank c = false)
    (hc : c ≠ ',') : c ∉ t := by
  intro hm
  rcases h c hm with hb' | hc'
  · rw [hb] at hb'
    contradiction
  · exact hc hc'

theorem isPadding_of_strip {t : Text} (h : Text.strip t = []) : IsPadding t := by
  obtain ⟨before, after, ht, hb⟩ := Text.exists_of_strip t
  rw [h, List.nil_append] at ht
  rw [ht]
  exact fun c hc => .inl (hb c hc)

theorem isPadding_intercalate {parts : List Text} (h : ∀ part ∈ parts, IsPadding part) :
    IsPadding ([','].intercalate parts) := by
  induction parts with
  | nil => exact nofun
  | cons part parts ih =>
    obtain ⟨hp, hps⟩ := List.forall_mem_cons.mp h
    cases parts with
    | nil => rwa [List.intercalate_singleton]
    | cons next parts =>
      rw [List.intercalate_cons_cons, isPadding_append, isPadding_append]
      exact ⟨⟨hp, by simp [IsPadding]⟩, ih hps⟩

theorem exists_of_intercalate {before after : List Text} (part : Text)
    (hb : ∀ t ∈ before, IsPadding t) (ha : ∀ t ∈ after, IsPadding t) :
    ∃ x y, [','].intercalate (before ++ part :: after) = x ++ (part ++ y) ∧ IsPadding x ∧
      IsPadding y := by
  induction before with
  | nil =>
    cases after with
    | nil => exact ⟨[], [], by simp, nofun, nofun⟩
    | cons next after =>
      refine ⟨[], [','] ++ [','].intercalate (next :: after), ?_, nofun, ?_⟩
      · rw [List.nil_append, List.intercalate_cons_cons, List.append_assoc, List.nil_append]
      · exact isPadding_append.mpr ⟨by simp [IsPadding], isPadding_intercalate ha⟩
  | cons t before ih =>
    obtain ⟨ht, hb⟩ := List.forall_mem_cons.mp hb
    obtain ⟨x, y, he, hx, hy⟩ := ih hb
    obtain ⟨next, others, hn⟩ := List.exists_cons_of_ne_nil
      (List.append_ne_nil_of_right_ne_nil before (List.cons_ne_nil part after))
    refine ⟨t ++ [','] ++ x, y, ?_, ?_, hy⟩
    · rw [List.cons_append, hn, List.intercalate_cons_cons, ← hn, he]
      simp only [List.append_assoc]
    · exact isPadding_append.mpr ⟨isPadding_append.mpr ⟨ht, by simp [IsPadding]⟩, hx⟩

theorem exists_of_commaList {t part : Text} (h : commaList t = [part]) :
    ∃ before after, t = before ++ (part ++ after) ∧ IsPadding before ∧ IsPadding after := by
  rw [commaList, List.filter_map, List.map_eq_singleton_iff] at h
  obtain ⟨raw, hf, rfl⟩ := h
  obtain ⟨before, after, hs, hb, -, ha⟩ := List.filter_eq_cons_iff.mp hf
  have hp : ∀ u : Text, ¬((!·.isEmpty) ∘ Text.strip) u = true → IsPadding u := by
    intro u hu
    exact isPadding_of_strip (by simpa using hu)
  obtain ⟨x, y, he, hx, hy⟩ := exists_of_intercalate raw (fun u hu => hp u (hb u hu))
    (fun u hu => hp u (List.filter_eq_nil_iff.mp ha u hu))
  rw [← hs, split, intercalate_splitFrom] at he
  obtain ⟨left, right, hr, hblank⟩ := Text.exists_of_strip raw
  refine ⟨x ++ left, right ++ y, ?_, ?_, ?_⟩
  · have hy : raw ++ y = left ++ (Text.strip raw ++ right) ++ y := congrArg (· ++ y) hr
    rw [he, hy]
    simp only [List.append_assoc]
  · exact isPadding_append.mpr ⟨hx, fun c hc => .inl (hblank c (List.mem_append_left _ hc))⟩
  · exact isPadding_append.mpr ⟨fun c hc => .inl (hblank c (List.mem_append_right _ hc)), hy⟩

/-! ### Blanks around the parts -/

/-- A scan is only ever in a quote that a quotation mark opened. -/
def Position.Proper (p : Position) : Prop := ∀ q ∈ p.quote, isQuote q = true

theorem proper_start : start.Proper := nofun

theorem Position.Proper.step {p : Position} (h : p.Proper) (c : Char) : (p.step c).Proper := by
  unfold Position.step
  split
  next q hq =>
    split
    next => exact nofun
    next => exact h
  next =>
    split
    next hc => exact fun q hq => Option.some.inj hq ▸ hc
    next =>
      split
      next => exact nofun
      next =>
        split
        next => exact nofun
        next => exact h

theorem neutral_of_isBlank {c : Char} (h : Text.isBlank c = true) {p : Position} (hp : p.Proper) :
    cutsAt [','] p c = false ∧ p.step c = p := by
  have hb : ∀ n ∈ Text.blankCodes, (isQuote (Char.ofNat n) || isOpening (Char.ofNat n) ||
      isClosing (Char.ofNat n) || Char.ofNat n == ',') = false := by decide +kernel
  have hc := hb _ (Text.toNat_mem_blankCodes h)
  rw [Char.ofNat_toNat] at hc
  simp only [Bool.or_eq_false_iff, beq_eq_false_iff_ne] at hc
  obtain ⟨⟨⟨hq, ho⟩, hcl⟩, hcomma⟩ := hc
  refine ⟨by simp [cutsAt, hcomma], ?_⟩
  unfold Position.step
  split
  next q hpq =>
    refine if_neg ?_
    rintro rfl
    rw [hp _ hpq] at hq
    contradiction
  next =>
    rw [hq, ho, hcl]
    rfl

variable {gap : Text} {p : Position}

theorem splitFrom_append_of_neutral (h : ∀ c ∈ gap, cutsAt [','] p c = false ∧ p.step c = p)
    (limit : Option Nat) (t : Text) :
    splitFrom [','] p limit (gap ++ t) = (splitFrom [','] p limit t).modifyHead (gap ++ ·) := by
  induction gap with
  | nil => exact (congrFun List.modifyHead_id _).symm
  | cons c gap ih =>
    obtain ⟨⟨hcut, hstep⟩, hg⟩ := List.forall_mem_cons.mp h
    rw [List.cons_append, splitFrom, hcut, hstep, ih hg, Bool.false_and,
      if_neg Bool.false_ne_true, List.modifyHead_modifyHead]
    rfl

theorem splitFrom_blank_append (h : ∀ c ∈ gap, Text.isBlank c = true) (hp : p.Proper) (t : Text) :
    splitFrom [','] p none (gap ++ t) = (splitFrom [','] p none t).modifyHead (gap ++ ·) :=
  splitFrom_append_of_neutral (fun c hc => neutral_of_isBlank (h c hc) hp) none t

theorem splitFrom_append_blank (h : ∀ c ∈ gap, Text.isBlank c = true) (hp : p.Proper) (t : Text) :
    ∃ parts last, splitFrom [','] p none t = parts ++ [last] ∧
      splitFrom [','] p none (t ++ gap) = parts ++ [last ++ gap] := by
  induction t generalizing p with
  | nil =>
    have hb := splitFrom_blank_append h hp []
    rw [List.append_nil] at hb
    exact ⟨[], [], rfl, by rw [List.nil_append, hb]; simp [splitFrom]⟩
  | cons c t ih =>
    rw [List.cons_append, splitFrom, splitFrom]
    split
    next =>
      obtain ⟨parts, last, he, hg⟩ := ih hp
      exact ⟨[] :: parts, last, congrArg ([] :: ·) he, congrArg ([] :: ·) hg⟩
    next =>
      obtain ⟨parts, last, he, hg⟩ := ih (hp.step c)
      rw [he, hg]
      cases parts with
      | nil => exact ⟨[], c :: last, rfl, rfl⟩
      | cons part parts => exact ⟨(c :: part) :: parts, last, rfl, rfl⟩

theorem commaList_strip (t : Text) : commaList (Text.strip t) = commaList t := by
  obtain ⟨before, after, ht, hb⟩ := Text.exists_of_strip t
  rw [List.forall_mem_append] at hb
  obtain ⟨parts, last, he, hg⟩ := splitFrom_append_blank hb.2 proper_start (Text.strip t)
  have hs : split [','] none t = (parts ++ [last ++ after]).modifyHead (before ++ ·) := by
    rw [split, congrArg (splitFrom [','] start none) ht, splitFrom_blank_append hb.1 proper_start, hg]
  have hmap : (split [','] none t).map Text.strip = (split [','] none (Text.strip t)).map Text.strip := by
    rw [hs, split, he]
    cases parts with
    | nil =>
      simp [Text.strip_blank_append hb.1, Text.strip_append_of_blank _ hb.2]
    | cons part parts =>
      simp [Text.strip_blank_append hb.1, Text.strip_append_of_blank _ hb.2]
  rw [commaList, commaList, hmap]

theorem seals_blank_append (h : ∀ c ∈ gap, Text.isBlank c = true) (hp : p.Proper) (t : Text) :
    seals [','] p (gap ++ t) = seals [','] p t := by
  induction gap with
  | nil => rfl
  | cons c gap ih =>
    obtain ⟨hc, hg⟩ := List.forall_mem_cons.mp h
    obtain ⟨hcut, hstep⟩ := neutral_of_isBlank hc hp
    rw [List.cons_append, seals, hcut, hstep, ih hg]
    rfl

theorem seals_append_blank (h : ∀ c ∈ gap, Text.isBlank c = true) (hp : p.Proper) (t : Text) :
    seals [','] p (t ++ gap) = seals [','] p t := by
  induction t generalizing p with
  | nil =>
    have hb := seals_blank_append h hp []
    rwa [List.append_nil] at hb
  | cons c t ih => rw [List.cons_append, seals, seals, ih (hp.step c)]

theorem seals_strip (t : Text) : seals [','] start (Text.strip t) = seals [','] start t := by
  obtain ⟨before, after, ht, hb⟩ := Text.exists_of_strip t
  rw [List.forall_mem_append] at hb
  rw [congrArg (seals [','] start) ht, seals_blank_append hb.1 proper_start,
    seals_append_blank hb.2 proper_start]

/-! ### Sealed parts -/

def delimiters : Text := ['(', ')', '[', ']', ',', '"', '\'']

theorem neutral_of_not_mem {c : Char} (h : c ∉ delimiters) :
    cutsAt [','] start c = false ∧ start.step c = start := by
  simp only [delimiters, List.mem_cons, List.not_mem_nil, or_false, not_or] at h
  obtain ⟨h₁, h₂, h₃, h₄, hc, h₆, h₇⟩ := h
  simp [cutsAt, Position.step, start, isQuote, isOpening, isClosing, *]

theorem seals_of_not_mem {t : Text} (h : ∀ c ∈ t, c ∉ delimiters) : seals [','] start t = true := by
  induction t with
  | nil => rfl
  | cons c t ih =>
    obtain ⟨hc, ht⟩ := List.forall_mem_cons.mp h
    obtain ⟨hcut, hstep⟩ := neutral_of_not_mem hc
    rw [seals, hcut, hstep, ih ht]
    rfl

theorem splitFrom_seals_append {t : Text} (h : seals [','] p t = true) (rest : Text) :
    splitFrom [','] p none (t ++ ',' :: rest) = t :: splitFrom [','] start none rest := by
  induction t generalizing p with
  | nil =>
    obtain rfl : p = start := by simpa [seals] using h
    rfl
  | cons c t ih =>
    simp only [seals, Bool.and_eq_true, Bool.not_eq_true'] at h
    rw [List.cons_append, splitFrom, h.1, ih h.2]
    rfl

/-! ### Parts that are found again -/

def isGrouping (c : Char) : Bool := isQuote c || isOpening c || isClosing c

theorem cutsAt_iff {separator c : Char} : cutsAt [separator] p c = true ↔
    c = separator ∧ isGrouping separator = false ∧ p = start := by
  have hp : p.isTop = true ↔ p = start := by
    obtain ⟨quote, depth⟩ := p
    simp [Position.isTop, start]
  rw [cutsAt, ← isGrouping, Bool.and_eq_true, Bool.and_eq_true, hp, beq_iff_eq,
    Bool.not_eq_true', List.singleton_inj]
  constructor
  · rintro ⟨⟨hs, hg⟩, rfl⟩
    exact ⟨rfl, hg, hs⟩
  · rintro ⟨rfl, hg, hs⟩
    exact ⟨⟨hs, hg⟩, rfl⟩

/-- A text that is made of the parts is cut into them again by a scan from a position on: no comma
counts in a part, and all parts but the last one close what they open. -/
def Separable : Position → List Text → Prop
  | _, [] => True
  | p, [part] => splitFrom [','] p none part = [part]
  | p, part :: next :: parts => seals [','] p part = true ∧ Separable start (next :: parts)

theorem Separable.cons {part : Text} {parts : List Text} (hp : seals [','] p part = true)
    (h : Separable start parts) : Separable p (part :: parts) := by
  cases parts with
  | nil => exact splitFrom_of_seals hp none
  | cons next parts => exact ⟨hp, h⟩

theorem Separable.of_cons {part : Text} {parts : List Text} (h : Separable p (part :: parts)) :
    Separable start parts := by
  cases parts with
  | nil => trivial
  | cons next parts => exact h.2

theorem separable_of_seals {parts : List Text} (h : ∀ part ∈ parts, seals [','] start part = true) :
    Separable start parts := by
  induction parts with
  | nil => trivial
  | cons part parts ih =>
    obtain ⟨hp, hps⟩ := List.forall_mem_cons.mp h
    exact .cons hp (ih hps)

/-- A scan is at its start again behind each cut. -/
theorem separable_splitFrom (p : Position) (t : Text) :
    Separable p (splitFrom [','] p none t) := by
  induction t generalizing p with
  | nil => rfl
  | cons c t ih =>
    rw [splitFrom]
    split
    next hc =>
      obtain ⟨-, -, rfl⟩ := cutsAt_iff.mp (Bool.and_eq_true_iff.mp hc).1
      exact .cons rfl (ih start)
    next hc =>
      have hcut : cutsAt [','] p c = false := by simpa using hc
      obtain ⟨part, parts, hs⟩ := List.exists_cons_of_ne_nil
        (splitFrom_ne_nil [','] (p.step c) none t)
      have h := ih (p.step c)
      rw [hs] at h ⊢
      cases parts with
      | nil =>
        have hp : splitFrom [','] (p.step c) none part = [part] := h
        simp [Separable, splitFrom, hcut, hp]
      | cons next parts => exact ⟨by simp [seals, hcut, h.1], h.2⟩

theorem splitFrom_strip {part : Text} (h : splitFrom [','] start none part = [part]) :
    splitFrom [','] start none (Text.strip part) = [Text.strip part] := by
  obtain ⟨before, after, ht, hb⟩ := Text.exists_of_strip part
  rw [List.forall_mem_append] at hb
  obtain ⟨parts, last, he, hg⟩ := splitFrom_append_blank hb.2 proper_start (Text.strip part)
  rw [ht, splitFrom_blank_append hb.1 proper_start, hg] at h
  have hl := congrArg List.length h
  simp only [List.length_modifyHead, List.length_append, List.length_singleton] at hl
  obtain rfl : parts = [] := List.eq_nil_of_length_eq_zero (by omega)
  have hj := intercalate_splitFrom [','] start none (Text.strip part)
  rw [he] at hj ⊢
  simpa using hj

theorem Separable.map_strip {parts : List Text} (h : Separable start parts) :
    Separable start (parts.map Text.strip) := by
  induction parts with
  | nil => trivial
  | cons part parts ih =>
    cases parts with
    | nil => exact splitFrom_strip h
    | cons next parts => exact .cons ((seals_strip part).trans h.1) (ih h.of_cons)

theorem Separable.filter {parts : List Text} (h : Separable start parts) (q : Text → Bool) :
    Separable start (parts.filter q) := by
  induction parts with
  | nil => trivial
  | cons part parts ih =>
    rw [List.filter_cons]
    split
    next =>
      cases parts with
      | nil => exact h
      | cons next parts => exact .cons h.1 (ih h.of_cons)
    next => exact ih h.of_cons

theorem Separable.splitFrom_intercalate {parts : List Text} (h : Separable p parts)
    (hn : parts ≠ []) : splitFrom [','] p none ([','].intercalate parts) = parts := by
  induction parts generalizing p with
  | nil => exact absurd rfl hn
  | cons part parts ih =>
    cases parts with
    | nil =>
      rw [List.intercalate_singleton]
      exact h
    | cons next parts =>
      rw [List.intercalate_cons_cons, List.append_assoc]
      exact (splitFrom_seals_append h.1 _).trans
        (congrArg (part :: ·) (ih h.2 (List.cons_ne_nil _ _)))

theorem split_intercalate {parts : List Text} (h : ∀ part ∈ parts, seals [','] start part = true)
    (hn : parts ≠ []) : split [','] none ([','].intercalate parts) = parts :=
  (separable_of_seals h).splitFrom_intercalate hn

theorem separable_commaList (t : Text) : Separable start (commaList t) :=
  ((separable_splitFrom start t).map_strip).filter _

theorem of_mem_commaList {t part : Text} (h : part ∈ commaList t) :
    Text.strip part = part ∧ part ≠ [] := by
  obtain ⟨hm, hn⟩ := List.mem_filter.mp h
  obtain ⟨raw, -, rfl⟩ := List.mem_map.mp hm
  obtain ⟨hh, hl⟩ := Text.firm_strip raw
  exact ⟨Text.strip_eq_self hh hl, by simpa using hn⟩

/-- A list is read again as it was. -/
theorem commaList_intercalate_commaList (t : Text) :
    commaList ([','].intercalate (commaList t)) = commaList t := by
  by_cases hn : commaList t = []
  · rw [hn]
    rfl
  · have hs : (commaList t).map Text.strip = commaList t :=
      (List.map_congr_left fun _ hm => (of_mem_commaList hm).1).trans (List.map_id _)
    rw [commaList, split, (separable_commaList t).splitFrom_intercalate hn, hs]
    exact List.filter_eq_self.mpr fun part hm => by simpa using (of_mem_commaList hm).2

end CustomProperties.Split
