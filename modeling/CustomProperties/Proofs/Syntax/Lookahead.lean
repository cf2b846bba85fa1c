import CustomProperties.Proofs.Syntax.Step

/-! # What a rule sees behind its lexeme

A rule of the lexer looks at a few characters behind the lexeme that it reads. Two texts agree if
every rule that stops in front of the first one stops in front of the second one too.
-/

namespace CustomProperties.Syntax

def stops : List Char := [' ', '\n', '\t', ';', ',', ':', '/', '"', ')', ']', '\x7d', '\x7b']

/-- Characters behind which no rule looks that did not start there. -/
def isShut (c : Char) : Bool :=
  isNameStart c || c.isDigit || (Bracket.ofOpening? c).isSome || c == '@' || c == '#'

/-- Nothing that could continue a lexeme starts here. -/
def Stopped (w : Text) : Prop := ∀ c ∈ w.head?, c ∈ stops

instance (w : Text) : Decidable (Stopped w) := inferInstanceAs (Decidable (∀ c ∈ w.head?, c ∈ stops))

inductive Agree : Text → Text → Prop

  | stop {v w : Text} : Stopped w → Agree v w

  | same {c : Char} {v w : Text} : c ≠ '\\' → Agree v w → Agree (c :: v) (c :: w)

  | shut {c : Char} {v w : Text} : isShut c = true → Agree (c :: v) (c :: w)

  -- the first letter of an address or a range is written in one way only
  | letter {c d : Char} {v w : Text} : c ∈ ['u', 'U'] → d ∈ ['u', 'U'] → Agree (c :: v) (d :: w)

  | escape {v w : Text} : escapes v = true → escapes w = true → Agree ('\\' :: v) ('\\' :: w)

theorem ne_backslash_of_isShut {c : Char} (h : isShut c = true) : c ≠ '\\' := by
  rintro rfl
  contradiction

theorem ne_hyphen_of_isShut {c : Char} (h : isShut c = true) : c ≠ '-' := by
  rintro rfl
  contradiction

namespace Agree

variable {v w : Text}

theorem append {p : Text} (hp : '\\' ∉ p) (h : Agree v w) : Agree (p ++ v) (p ++ w) := by
  induction p with
  | nil => exact h
  | cons c p ih =>
    rw [List.mem_cons, not_or] at hp
    exact .same (Ne.symm hp.1) (ih hp.2)

/-- A character that is no stop and behind which no rule looks away is seen in both or in none. -/
theorem head? {c : Char} (h : Agree v w) (hs : c ∉ stops) (hc : c ∉ ['u', 'U'])
    (hw : w.head? = some c) : v.head? = some c := by
  cases h with
  | stop h => exact absurd (h c hw) hs
  | same => exact hw
  | shut => exact hw
  | letter _ hd =>
    obtain rfl := Option.some.inj hw
    contradiction
  | escape => exact hw

theorem any_head? {p : Char → Bool} (h : Agree v w) (hs : ∀ c ∈ stops, p c = false)
    (hu : p 'u' = p 'U') (hv : v.head?.any p = false) : w.head?.any p = false := by
  cases h with
  | @stop _ w h =>
    cases w with
    | nil => rfl
    | cons c w => exact hs c (h c rfl)
  | same => exact hv
  | shut => exact hv
  | letter hc hd =>
    have he : ∀ c ∈ ['u', 'U'], p c = p 'u' := by simp [hu]
    simpa [he _ hc, he _ hd] using hv
  | escape => exact hv

theorem dropPrefix?_eq_none {pre : Text} (h : Agree v w)
    (hs : ∀ c ∈ pre, c ∉ stops ∧ isShut c = false ∧ c ≠ '\\')
    (hv : Text.dropPrefix? pre v = none) : Text.dropPrefix? pre w = none := by
  induction pre generalizing v w with
  | nil => contradiction
  | cons p pre ih =>
    rw [List.forall_mem_cons] at hs
    obtain ⟨⟨hstop, hshut, hb⟩, hs⟩ := hs
    cases h with
    | @stop _ w h =>
      cases w with
      | nil => rfl
      | cons c w =>
        have hc : p ≠ c := fun he => hstop (he ▸ h c rfl)
        rw [Text.dropPrefix?, if_neg hc]
    | same _ h =>
      rw [Text.dropPrefix?] at hv ⊢
      split at hv
      next he => rw [if_pos he]; exact ih h hs hv
      next he => rw [if_neg he]
    | shut hc =>
      rw [Text.dropPrefix?, if_neg]
      rintro rfl
      rw [hshut] at hc
      contradiction
    | letter _ hd =>
      have hall : ∀ c ∈ ['u', 'U'], isShut c = true := by decide
      rw [Text.dropPrefix?, if_neg]
      rintro rfl
      rw [hall p hd] at hshut
      contradiction
    | escape => rw [Text.dropPrefix?, if_neg hb]

theorem startsName (h : Agree v w) (hv : Lexeme.startsName v = false) :
    Lexeme.startsName w = false := by
  cases h with
  | @stop _ w h =>
    cases w with
    | nil => rfl
    | cons c w =>
      have hall : ∀ c ∈ stops, isNameChar c = false ∧ c ≠ '\\' := by decide
      obtain ⟨hn, hb⟩ := hall c (h c rfl)
      simp [Lexeme.startsName, hn, hb]
  | same hb => simpa [Lexeme.startsName, hb] using hv
  | shut hc =>
    have hb : _ ≠ '\\' := ne_backslash_of_isShut hc
    simpa [Lexeme.startsName, hb] using hv
  | letter hc =>
    have hall : ∀ c ∈ ['u', 'U'], isNameChar c = true := by decide
    simp [Lexeme.startsName, hall _ hc] at hv
  | escape he => simp [Lexeme.startsName, he] at hv

theorem startsIdent_cons {c : Char} (hh : c ≠ '-') (hb : c ≠ '\\') (t : Text) :
    startsIdent (c :: t) = isNameStart c := by
  unfold startsIdent
  split
  next he => cases he; contradiction
  next he => cases he; contradiction
  next he => cases he; contradiction
  next he => cases he; rfl
  next he => contradiction

theorem startsIdent_hyphen (t : Text) : startsIdent ('-' :: t) =
    (t.head?.any (fun c => isNameStart c || c == '-') ||
      (t.head? == some '\\' && escapes (t.drop 1))) := by
  cases t with
  | nil => rfl
  | cons c t =>
    by_cases hc : c = '\\'
    · subst hc
      rfl
    · have hs : startsIdent ('-' :: c :: t) = (isNameStart c || c == '-') := by
        unfold startsIdent
        split
        next he => cases he; contradiction
        next he => cases he; rfl
        next he => cases he
        next h₁ h₂ h₃ he => cases he; exact (h₂ _ _ rfl rfl).elim
        next he => contradiction
      simp [hs, hc]

theorem not_isNameStart_of_mem_stops {c : Char} (h : c ∈ stops) :
    isNameStart c = false ∧ c ≠ '-' ∧ c ≠ '\\' := by
  have hall : ∀ c ∈ stops, isNameStart c = false ∧ c ≠ '-' ∧ c ≠ '\\' := by decide
  exact hall c h

theorem startsIdent_behind_hyphen (h : Agree v w) (hv : startsIdent ('-' :: v) = false) :
    startsIdent ('-' :: w) = false := by
  rw [startsIdent_hyphen] at hv ⊢
  cases h with
  | @stop _ w h =>
    cases w with
    | nil => rfl
    | cons c w =>
      obtain ⟨hn, hh, hb⟩ := not_isNameStart_of_mem_stops (h c rfl)
      simp [hn, hh, hb]
  | same hb => simpa [hb] using hv
  | shut hc => simpa [ne_backslash_of_isShut hc] using hv
  | letter hc =>
    have hall : ∀ c ∈ ['u', 'U'], isNameStart c = true := by decide
    simp [hall _ hc] at hv
  | escape he => simp [he] at hv

theorem startsIdent (h : Agree v w) (hv : Syntax.startsIdent v = false) :
    Syntax.startsIdent w = false := by
  cases h with
  | @stop _ w h =>
    cases w with
    | nil => rfl
    | cons c w =>
      obtain ⟨hn, hh, hb⟩ := not_isNameStart_of_mem_stops (h c rfl)
      rw [startsIdent_cons hh hb, hn]
  | @same c v w hb h =>
    by_cases hh : c = '-'
    · subst hh
      exact h.startsIdent_behind_hyphen hv
    · rwa [startsIdent_cons hh hb] at hv ⊢
  | shut hc =>
    rwa [startsIdent_cons (ne_hyphen_of_isShut hc) (ne_backslash_of_isShut hc)] at hv ⊢
  | letter hc =>
    have hall : ∀ c ∈ ['u', 'U'], isNameStart c = true ∧ c ≠ '-' ∧ c ≠ '\\' := by decide
    obtain ⟨hn, hh, hb⟩ := hall _ hc
    rw [startsIdent_cons hh hb, hn] at hv
    contradiction
  | escape he => rw [Syntax.startsIdent, he] at hv; contradiction

theorem append_dropPrefix?_eq_none {pre p : Text} (h : Agree v w)
    (hs : ∀ c ∈ pre, c ∉ stops ∧ isShut c = false ∧ c ≠ '\\')
    (hv : Text.dropPrefix? pre (p ++ v) = none) : Text.dropPrefix? pre (p ++ w) = none := by
  induction p generalizing pre with
  | nil => exact h.dropPrefix?_eq_none hs hv
  | cons c p ih =>
    cases pre with
    | nil => contradiction
    | cons d pre =>
      rw [List.cons_append, Text.dropPrefix?] at hv ⊢
      split at hv
      next he =>
        rw [if_pos he]
        exact ih (fun c hc => hs c (List.mem_cons_of_mem d hc)) hv
      next he => rw [if_neg he]

/-- Whether a range starts is decided by three characters. -/
theorem readRange?_eq_none_iff {c : Char} {t : Text} : readRange? (c :: t) = none ↔
    ¬((c = 'U' ∨ c = 'u') ∧ t.head? = some '+' ∧
      t.tail.head?.any (fun d => isHexDigit d || d == '?') = true) := by
  unfold readRange?
  split
  next u d t he =>
    cases he
    simp only [List.head?_cons, List.tail_cons, Option.any_some, true_and, Bool.or_eq_true,
      beq_iff_eq]
    split
    next hc => exact iff_of_false (Option.some_ne_none _) (not_not_intro hc)
    next hc => exact iff_of_true rfl hc
  next hne =>
    refine iff_of_true rfl ?_
    rintro ⟨-, hp, hd⟩
    cases t with
    | nil => contradiction
    | cons p t =>
      cases t with
      | nil => contradiction
      | cons d t =>
        obtain rfl := Option.some.inj hp
        exact hne _ _ _ rfl

theorem readRange?_cases {c : Char} {t rest : Text} {r : CodeRange}
    (h : readRange? (c :: t) = some (r, rest)) : c = 'U' ∨ c = 'u' := by
  refine Decidable.byContradiction fun hn => ?_
  rw [readRange?_eq_none_iff.mpr fun h => hn h.1] at h
  contradiction

theorem readRange?_eq_none {c : Char} {p : Text} (h : Agree v w)
    (hv : readRange? (c :: (p ++ v)) = none) : readRange? (c :: (p ++ w)) = none := by
  rw [readRange?_eq_none_iff] at hv ⊢
  rintro ⟨hc, hp, hd⟩
  refine hv ⟨hc, ?_⟩
  have hany {v w : Text} (h : Agree v w)
      (hw : w.head?.any (fun d => isHexDigit d || d == '?') = true) :
      v.head?.any (fun d => isHexDigit d || d == '?') = true := by
    refine eq_true_of_ne_false fun hn => ?_
    rw [h.any_head? (by decide) (by decide) hn] at hw
    contradiction
  match p with
  | [] =>
    refine ⟨h.head? (by decide) (by decide) hp, ?_⟩
    cases h with
    | stop hs => exact absurd (hs '+' hp) (by decide)
    | same _ h => exact hany h hd
    | shut hs =>
      obtain rfl := Option.some.inj hp
      contradiction
    | letter _ hm =>
      obtain rfl := Option.some.inj hp
      simp at hm
    | escape =>
      have hb := Option.some.inj hp
      contradiction
  | [e] => exact ⟨hp, hany h hd⟩
  | e :: d :: p => exact ⟨hp, hd⟩

end Agree

/-! ### Numbers -/

def startsMantissa : Text → Bool
  | [] => false
  | c :: t => c.isDigit || (c == '.' && t.head?.any Char.isDigit)

theorem takeWhile_eq_nil_iff_head? {p : Char → Bool} {t : Text} :
    t.takeWhile p = [] ↔ t.head?.any p = false := by
  cases t with
  | nil => simp
  | cons c t => cases hc : p c <;> simp [hc]

theorem dropWhile_eq_self_of_head? {p : Char → Bool} {t : Text} (h : t.head?.any p = false) :
    t.dropWhile p = t := by
  cases t with
  | nil => rfl
  | cons c t =>
    have hc : p c = false := h
    simp [hc]

theorem startsMantissa_iff {t : Text} (h : t.head?.any Char.isDigit = false) :
    startsMantissa t = true ↔ t.head? = some '.' ∧ (t.drop 1).takeWhile Char.isDigit ≠ [] := by
  rw [Ne, takeWhile_eq_nil_iff_head?, Bool.not_eq_false]
  cases t with
  | nil => simp [startsMantissa]
  | cons c t =>
    have hc : c.isDigit = false := h
    simp [startsMantissa, hc]

theorem readMantissa?_eq_none_iff {t : Text} :
    readMantissa? t = none ↔ startsMantissa t = false := by
  cases t with
  | nil => simp [readMantissa?, startsMantissa]
  | cons c t =>
    unfold readMantissa? startsMantissa
    dsimp only
    cases hc : c.isDigit with
    | true =>
      rw [List.takeWhile_cons_of_pos hc, if_neg (List.cons_ne_nil _ _)]
      split <;> simp
    | false =>
      have hn : ¬c.isDigit = true := ne_true_of_eq_false hc
      rw [List.takeWhile_cons_of_neg hn, List.dropWhile_cons_of_neg hn]
      by_cases hf : t.takeWhile Char.isDigit = []
      · rw [takeWhile_eq_nil_iff_head?.mp hf, Bool.and_false]
        simp [hf]
      · rw [eq_true_of_ne_false (mt takeWhile_eq_nil_iff_head?.mpr hf)]
        by_cases hp : c = '.' <;> simp [hp, hf]

theorem readNumber?_eq_none_iff {t : Text} :
    readNumber? t = none ↔ startsMantissa (readSign t).2 = false := by
  rw [readNumber?, Option.map_eq_none_iff, readMantissa?_eq_none_iff]

namespace Agree

variable {v w : Text}

theorem startsMantissa_cons {c : Char} (h : Agree v w)
    (hv : Syntax.startsMantissa (c :: v) = false) : Syntax.startsMantissa (c :: w) = false := by
  rw [Syntax.startsMantissa, Bool.or_eq_false_iff] at hv ⊢
  refine ⟨hv.1, ?_⟩
  cases hp : c == '.' with
  | false => rfl
  | true =>
    rw [hp, Bool.true_and] at hv
    rw [Bool.true_and]
    exact h.any_head? (by decide) (by decide) hv.2

theorem startsMantissa (h : Agree v w) (hv : Syntax.startsMantissa v = false) :
    Syntax.startsMantissa w = false := by
  cases h with
  | @stop _ w h =>
    cases w with
    | nil => rfl
    | cons c w =>
      have hall : ∀ c ∈ stops, c.isDigit = false ∧ c ≠ '.' := by decide
      obtain ⟨hd, hp⟩ := hall c (h c rfl)
      simp [Syntax.startsMantissa, hd, hp]
  | same _ h => exact h.startsMantissa_cons hv
  | @shut c v w hc =>
    have hp : c ≠ '.' := by
      rintro rfl
      contradiction
    simpa [Syntax.startsMantissa, hp] using hv
  | @letter c d v w hc hd =>
    have hall : ∀ c ∈ ['u', 'U'], c.isDigit = false ∧ c ≠ '.' := by decide
    obtain ⟨hn, hp⟩ := hall d hd
    simp [Syntax.startsMantissa, hn, hp]
  | escape => rfl

theorem readNumber?_eq_none {c : Char} (h : Agree v w) (hv : readNumber? (c :: v) = none) :
    readNumber? (c :: w) = none := by
  rw [readNumber?_eq_none_iff] at hv ⊢
  by_cases hc : c = '+' ∨ c = '-'
  · rw [readSign, if_pos hc] at hv ⊢
    exact h.startsMantissa hv
  · rw [readSign, if_neg hc] at hv ⊢
    exact h.startsMantissa_cons hv

end Agree

end CustomProperties.Syntax
