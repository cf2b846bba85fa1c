import CustomProperties.Proofs.Syntax.Spelling
import CustomProperties.Proofs.Syntax.Step

/-! # How far a lexeme reaches

Behind its first character a lexeme takes blanks, or characters of names, numbers and marks, unless
it is a string, a comment or an address. An escape in a name starts with a backslash, up to which
the same holds.
-/

namespace CustomProperties.Syntax

def isJoining (c : Char) : Bool := isNameChar c || ("+.%>=|?" : Text).contains c

theorem isJoining_of_isNameChar {c : Char} (h : isNameChar c = true) : isJoining c = true := by
  rw [isJoining, h, Bool.true_or]

variable {c : Char} {t u x y rest : Text}

theorem readName_cases (t : Text) :
    ((readName t).1 ++ (readName t).2 = t ∧ ∀ d ∈ (readName t).1, isNameChar d = true) ∨
      ∃ x y, t = x ++ '\\' :: y ∧ ∀ d ∈ x, isNameChar d = true := by
  fun_induction readName t with
  | case1 => exact .inl ⟨rfl, List.forall_mem_nil _⟩
  | case2 c t hc name rest hr ih =>
    rw [hr] at ih
    rcases ih with ⟨he, hn⟩ | ⟨x, y, he, hn⟩
    · exact .inl ⟨congrArg (c :: ·) he, List.forall_mem_cons.mpr ⟨hc, hn⟩⟩
    · exact .inr ⟨c :: x, y, congrArg (c :: ·) he, List.forall_mem_cons.mpr ⟨hc, hn⟩⟩
  | case3 c t _ hc => exact .inr ⟨[], t, by rw [hc.1]; rfl, List.forall_mem_nil _⟩
  | case4 c t => exact .inl ⟨rfl, List.forall_mem_nil _⟩

theorem isJoining_of_isDigit (h : c.isDigit = true) : isJoining c = true :=
  isJoining_of_isNameChar (by simp [isNameChar, h])

theorem isJoining_takeWhile (t : Text) : ∀ d ∈ t.takeWhile Char.isDigit, isJoining d = true :=
  fun d hd => isJoining_of_isDigit (List.all_eq_true.mp List.all_takeWhile d hd)

theorem isJoining_readSign (t : Text) : ∀ d ∈ (readSign t).1, isJoining d = true := by
  cases t with
  | nil => exact List.forall_mem_nil _
  | cons c t =>
    rw [readSign]
    split
    next h => rcases h with rfl | rfl <;> simp <;> decide
    next => exact List.forall_mem_nil _

theorem isJoining_readMantissa? {mantissa : Text} (h : readMantissa? t = some (mantissa, rest)) :
    ∀ d ∈ mantissa, isJoining d = true := by
  unfold readMantissa? at h
  dsimp only at h
  split at h
  next =>
    cases h
    refine List.forall_mem_append.mpr ⟨isJoining_takeWhile t, ?_⟩
    exact List.forall_mem_cons.mpr ⟨by decide, isJoining_takeWhile _⟩
  next =>
    split at h
    next => contradiction
    next =>
      cases h
      exact isJoining_takeWhile t

theorem isJoining_readExponent (t : Text) : ∀ d ∈ (readExponent t).1, isJoining d = true := by
  cases t with
  | nil => exact List.forall_mem_nil _
  | cons c t =>
    rw [readExponent]
    split
    next h =>
      refine List.forall_mem_cons.mpr ⟨?_, List.forall_mem_append.mpr
        ⟨isJoining_readSign t, isJoining_takeWhile _⟩⟩
      rcases h.1 with rfl | rfl <;> decide
    next => exact List.forall_mem_nil _

theorem isJoining_readNumber? {digits : Text} (h : readNumber? t = some (digits, rest)) :
    ∀ d ∈ digits, isJoining d = true := by
  obtain ⟨⟨mantissa, r⟩, hm, he⟩ := Option.map_eq_some_iff.mp h
  cases he
  exact List.forall_mem_append.mpr ⟨isJoining_readSign t,
    List.forall_mem_append.mpr ⟨isJoining_readMantissa? hm, isJoining_readExponent _⟩⟩

def Joins (t u : Text) : Prop := ∃ x, t = x ++ u ∧ ∀ d ∈ x, isJoining d = true

namespace Joins

theorem refl (t : Text) : Joins t t := ⟨[], rfl, nofun⟩

theorem trans (h : Joins t u) (h' : Joins u rest) : Joins t rest := by
  obtain ⟨x, rfl, hx⟩ := h
  obtain ⟨y, rfl, hy⟩ := h'
  exact ⟨x ++ y, (List.append_assoc ..).symm, List.forall_mem_append.mpr ⟨hx, hy⟩⟩

theorem cons (hc : isJoining c = true) (h : Joins t u) : Joins (c :: t) u := by
  obtain ⟨x, rfl, hx⟩ := h
  exact ⟨c :: x, rfl, List.forall_mem_cons.mpr ⟨hc, hx⟩⟩

theorem single (hc : isJoining c = true) (t : Text) : Joins (c :: t) t := cons hc (refl t)

theorem tail (h : Joins (c :: t) u) (hl : u.length ≤ t.length) : Joins t u := by
  obtain ⟨x, he, hx⟩ := h
  cases x with
  | nil =>
    rw [List.nil_append] at he
    rw [← he, List.length_cons] at hl
    omega
  | cons d x =>
    cases he
    exact ⟨x, rfl, (List.forall_mem_cons.mp hx).2⟩

theorem of_isPrefix (h : x <+: t) (hx : ∀ d ∈ x, isJoining d = true) :
    Joins t (t.drop x.length) := by
  obtain ⟨u, rfl⟩ := h
  exact ⟨x, by rw [List.drop_left], hx⟩

end Joins

theorem isJoining_of_isHexDigit (h : isHexDigit c = true) : isJoining c = true := by
  by_contra hj
  have hn : isNameChar c ≠ true := fun hn => hj (isJoining_of_isNameChar hn)
  simp only [isNameChar, Bool.not_eq_true, Bool.or_eq_false_iff] at hn
  rw [isHexDigit_eq_false hn.1.1 hn.1.2] at h
  contradiction

theorem joins_hexDigits (t : Text) :
    ((t.take 6).takeWhile isHexDigit) <+: t ∧ ∀ d ∈ (t.take 6).takeWhile isHexDigit, isJoining d = true :=
  ⟨(List.takeWhile_prefix _).trans (List.take_prefix 6 t),
    fun _ hd => isJoining_of_isHexDigit (isHexDigit_of_mem_take hd)⟩

theorem joins_readRangeEnd (first : Nat) (t : Text) : Joins t (readRangeEnd first t).2 := by
  unfold readRangeEnd
  split
  next rest =>
    split
    next => exact .refl _
    next => exact .cons (by decide) (.of_isPrefix (joins_hexDigits rest).1 (joins_hexDigits rest).2)
  next => exact .refl _

theorem joins_readRange (t : Text) : Joins t (readRange t).2 := by
  obtain ⟨hp, hd⟩ := joins_hexDigits t
  let stem := (t.take 6).takeWhile isHexDigit
  let marks := ((t.take 6).drop stem.length).takeWhile (· == '?')
  have hq : ∀ d ∈ marks, isJoining d = true := fun d hm => by
    have hd : (d == '?') = true := List.all_eq_true.mp List.all_takeWhile d hm
    rw [beq_iff_eq.mp hd]
    decide
  have hs : t.take 6 = stem ++ (t.take 6).drop stem.length :=
    (List.prefix_iff_eq_append.mp (List.takeWhile_prefix _)).symm
  have hm : stem ++ marks <+: t := by
    refine List.IsPrefix.trans ?_ (List.take_prefix 6 t)
    have hpre := (List.prefix_append_right_inj stem).mpr
      (List.takeWhile_prefix (· == '?') (l := (t.take 6).drop stem.length))
    rwa [← hs] at hpre
  have hj := Joins.of_isPrefix hm (List.forall_mem_append.mpr ⟨hd, hq⟩)
  rw [List.length_append] at hj
  unfold readRange
  dsimp only
  split
  next => exact hj.trans (joins_readRangeEnd _ _)
  next => exact hj

theorem joins_readRange? {r : CodeRange} (h : readRange? t = some (r, rest)) : Joins t rest := by
  unfold readRange? at h
  split at h
  next c d t =>
    split at h
    next hc =>
      have hr := joins_readRange (d :: t)
      rw [Option.some.inj h] at hr
      refine .cons ?_ (.cons (by decide) hr)
      rcases hc.1 with rfl | rfl <;> decide
    next => contradiction
  next => contradiction

/-- Behind joining characters stands a backslash. -/
def Escaped (t : Text) : Prop := ∃ x y, t = x ++ '\\' :: y ∧ ∀ d ∈ x, isJoining d = true

theorem Joins.escaped (h : Joins t u) (hu : Escaped u) : Escaped t := by
  obtain ⟨x, rfl, hx⟩ := h
  obtain ⟨y, z, rfl, hy⟩ := hu
  exact ⟨x ++ y, z, (List.append_assoc ..).symm, List.forall_mem_append.mpr ⟨hx, hy⟩⟩

theorem Escaped.tail (h : Escaped (c :: t)) (hc : c ≠ '\\') : Escaped t := by
  obtain ⟨x, y, he, hx⟩ := h
  cases x with
  | nil =>
    cases he
    exact absurd rfl hc
  | cons d x =>
    cases he
    exact ⟨x, y, rfl, (List.forall_mem_cons.mp hx).2⟩

theorem joins_readName (t : Text) : Joins t (readName t).2 ∨ Escaped t := by
  rcases readName_cases t with ⟨he, hn⟩ | ⟨x, y, he, hn⟩
  · exact .inl ⟨_, he.symm, fun d hd => isJoining_of_isNameChar (hn d hd)⟩
  · exact .inr ⟨x, y, he, fun d hd => isJoining_of_isNameChar (hn d hd)⟩

namespace Lexeme

/-- What a token takes of the text behind its first character. -/
inductive Takes (t u : Text) : Prop

  | joins : Joins t u → Takes t u

  | blanks {x : Text} : t = x ++ u → (∀ d ∈ x, isSpace d = true) → Takes t u

  | openingMark : t = '!' :: '-' :: '-' :: u → Takes t u

  | escaped : Escaped t → Takes t u

theorem takes_readName (hi : startsIdent (c :: t) = true) (hc : c ≠ '\\') :
    Takes t (readName (c :: t)).2 := by
  rcases joins_readName (c :: t) with h | h
  · exact .joins (h.tail (Nat.le_of_lt_succ (readName_of_startsIdent hi)))
  · exact .escaped (h.tail hc)

theorem takes_readNumber? {digits : Text} (h : readNumber? (c :: t) = some (digits, u)) :
    Joins t u := by
  have hj : Joins (c :: t) u :=
    ⟨digits, (readNumber?_append h).1.symm, isJoining_readNumber? h⟩
  exact hj.tail (Nat.le_of_lt_succ (length_readNumber? h))

/-- How far a token reaches that is no string, comment or address. -/
theorem Step.takes {tok : Token} (h : Step c t (.token tok) u) (hq : isQuote c = false)
    (hb : c ≠ '\\') (hcomment : ¬(c = '/' ∧ t.head? = some '*'))
    (hu : ∀ name arguments, ¬OpensUrl c t name arguments) : Takes t u := by
  have hname (t : Text) : Takes t (readName t).2 := by
    rcases joins_readName t with h | h
    · exact .joins h
    · exact .escaped h
  cases h with
  | whitespace =>
    exact .blanks List.takeWhile_append_dropWhile.symm
      fun d hd => List.all_eq_true.mp List.all_takeWhile d hd
  | codeRange hs hr =>
    exact .joins ((joins_readRange? hr).tail (Nat.le_of_lt_succ (length_readRange? hr)))
  | closingMark => exact .joins (.cons (by decide) (.single (by decide) u))
  | ident _ hi hr => simpa only [hr] using takes_readName hi hb
  | url ho => exact absurd ho (hu _ _)
  | openUrl ho => exact absurd ho (hu _ _)
  | badUrl ho => exact absurd ho (hu _ _)
  | number _ _ hn => exact .joins (takes_readNumber? hn)
  | percentage _ _ hn => exact .joins ((takes_readNumber? hn).trans (.single (by decide) u))
  | @dimension _ _ _ rest _ _ hn =>
    have hj := takes_readNumber? hn
    rcases joins_readName rest with h | h
    · exact .joins (hj.trans h)
    · exact .escaped (hj.escaped h)
  | atKeyword => exact hname t
  | atSign => exact .joins (.refl _)
  | hash => exact hname t
  | hashSign => exact .joins (.refl _)
  | string hc => rw [hq] at hc; contradiction
  | openString hc => rw [hq] at hc; contradiction
  | badString hc => rw [hq] at hc; contradiction
  | comment => exact absurd ⟨rfl, rfl⟩ hcomment
  | openComment => exact absurd ⟨rfl, rfl⟩ hcomment
  | openingMark => exact .openingMark rfl
  | bars => exact .joins (.single (by decide) u)
  | joined => exact .joins (.single (by decide) u)
  | sign => exact .joins (.refl _)

theorem Step.cases_of_opening {o : Opener} (h : Step c t (.opening o) u) :
    (∃ b : Bracket, b.opening = c) ∨ ∃ name, o = .function name ∧ readName (c :: t) = (name, '(' :: u) := by
  cases h with
  | @opening b => exact .inl ⟨b, rfl⟩
  | function _ _ hr => exact .inr ⟨_, rfl, hr⟩

theorem Step.eq_of_literal {d : Char} (h : Step c t (.token (.literal [d])) u) : d = c := by
  cases h <;> rfl

end Lexeme

end CustomProperties.Syntax
