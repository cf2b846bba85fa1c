import CustomProperties.Proofs.Syntax.Numerals
import CustomProperties.Proofs.Syntax.Parses
import CustomProperties.Proofs.Syntax.Spelling

/-! # Lexemes that are written

A token is tidy if the writer says what the text said: names are spelled as they are written, and
nothing is cut off or spoilt. What is written for a tidy token is read as the same token, in front
of every text that agrees with the one that stood behind it.
-/

namespace CustomProperties.Syntax

def hasFirmEnds (t : Text) : Bool :=
  t.head?.any (!Text.isBlank ·) && t.getLast?.any (!Text.isBlank ·)

/-- A token is read from what is written for it; `place` is where it was read. -/
def Token.isTidy (place : Text) : Token → Bool
  | .ident name => (writeIdent name).isPrefixOf place
  | .atKeyword name => !name.contains '\n'
  | .string _ closed => closed
  | .url value closed =>
    closed && place.head?.any (fun c => c == 'u' || c == 'U') && value.all (!spoilsWrittenUrl ·)
  | .literal text => text != ['\\']
  | .dimension _ unit => isPlainUnit unit
  | .badString => false
  | .badUrl => false
  | _ => true

namespace Lexeme

def Lexes (s : Text) (m : Mark) (rest : Text) : Prop := ∃ c t, s = c :: t ∧ next c t = (m, rest)

theorem Step.lexes {c : Char} {t rest : Text} {m : Mark} (h : Step c t m rest) :
    Lexes (c :: t) m rest := ⟨c, t, rfl, h.eq⟩

theorem Proper.of_agree {c : Char} {p v w : Text} (h : Proper c (p ++ v)) (ha : Agree v w) :
    Proper c (p ++ w) :=
  ⟨h.space, ha.readRange?_eq_none h.range,
    ha.append_dropPrefix?_eq_none (p := c :: p) (by decide) h.mark⟩

/-! ### Names -/

theorem eq_of_readName_eq_nil {t : Text} (h : (readName t).1 = []) : (readName t).2 = t := by
  fun_induction readName t with
  | case1 => rfl
  | case2 => contradiction
  | case3 => contradiction
  | case4 => rfl

theorem eq_append_of_isPrefix {name s rest : Text} (hr : readName s = (name, rest))
    (hp : (writeIdent name).isPrefixOf s = true) : s = writeIdent name ++ rest := by
  obtain ⟨x, rfl⟩ := List.isPrefixOf_iff_prefix.mp hp
  rw [readName_writeIdent] at hr
  have hn : (readName x).1 = [] := by simpa using congrArg Prod.fst hr
  rw [← eq_of_readName_eq_nil hn, congrArg Prod.snd hr]

theorem readName_writeIdent_of {name w : Text} (h : startsName w = false) :
    readName (writeIdent name ++ w) = (name, w) := by
  rw [readName_writeIdent, readName_of_not_startsName h, List.append_nil]

theorem agree_escape {c : Char} {u v w : Text} (h : Escape c u) : Agree (u ++ v) (u ++ w) := by
  obtain ⟨x, rfl, -, hx⟩ := h
  exact .escape (hx v).1 (hx w).1

theorem isShut_of_isNameStart {c : Char} (h : isNameStart c = true) : isShut c = true := by
  simp [isShut, h]

theorem agree_writeName (name : Text) {v w : Text} (h : Agree v w) :
    Agree (writeName name ++ v) (writeName name ++ w) := by
  induction name with
  | nil => exact h
  | cons c name ih =>
    have hw : writeName (c :: name) = writeNameChar c ++ writeName name := List.flatMap_cons
    rw [hw, List.append_assoc, List.append_assoc]
    unfold writeNameChar
    split
    next hc =>
      by_cases hh : c = '-'
      · subst hh
        exact .same (by decide) ih
      · refine .shut ?_
        have hs : isNameStart c = true ∨ c.isDigit = true := by
          simpa [isNameChar, hh] using hc
        rcases hs with hs | hs <;> simp [isShut, hs]
    next hc =>
      simp only [isNameChar, Bool.or_eq_true, not_or, Bool.not_eq_true] at hc
      exact agree_escape (escape_break_getD (isHexDigit_eq_false hc.1.1 hc.1.2))

theorem agree_writeNameStart (c : Char) (v w : Text) :
    Agree (writeNameStart c ++ v) (writeNameStart c ++ w) := by
  rcases writeNameStart_cases c with ⟨hc, hw⟩ | ⟨-, hc⟩
  · rw [hw]
    exact .shut (isShut_of_isNameStart hc)
  · exact agree_escape hc

theorem agree_writeIdent (name : Text) {v w : Text} (h : Agree v w) :
    Agree (writeIdent name ++ v) (writeIdent name ++ w) := by
  unfold writeIdent
  split
  next => exact .escape rfl rfl
  next rest => exact .same (by decide) (.same (by decide) (agree_writeName rest h))
  next c rest _ =>
    simp only [List.cons_append, List.append_assoc]
    exact .same (by decide) (agree_writeNameStart c _ _)
  next c rest _ _ _ =>
    rw [List.append_assoc, List.append_assoc]
    exact agree_writeNameStart c _ _
  next => exact h

/-- What a name in the text says of the same name in front of another text. -/
structure NameStarts (c : Char) (p name w : Text) : Prop where
  proper : Proper c (p ++ w)
  ident : startsIdent (c :: (p ++ w)) = true
  read : readName (c :: (p ++ w)) = (name, w)

theorem exists_nameStarts {c : Char} {t name u w : Text} (hp : Proper c t)
    (hi : startsIdent (c :: t) = true) (hr : readName (c :: t) = (name, u))
    (ht : (writeIdent name).isPrefixOf (c :: t) = true) (ha : Agree u w) :
    ∃ p, writeIdent name = c :: p ∧ NameStarts c p name w := by
  have hn : name ≠ [] := by
    rintro rfl
    have hl := readName_of_startsIdent hi
    rw [hr, ← eq_of_readName_eq_nil (congrArg Prod.fst hr), hr] at hl
    exact Nat.lt_irrefl _ hl
  have he := eq_append_of_isPrefix hr ht
  have hs : startsName u = false := by
    have := not_startsName_readName (c :: t)
    rwa [hr] at this
  cases hw : writeIdent name with
  | nil =>
    have := startsIdent_writeIdent hn []
    rw [hw] at this
    contradiction
  | cons d p =>
    rw [hw, List.cons_append] at he
    obtain ⟨rfl, rfl⟩ := List.cons.inj he
    have hiw := startsIdent_writeIdent hn w
    have hrw : readName (writeIdent name ++ w) = (name, w) :=
      readName_writeIdent_of (ha.startsName hs)
    rw [hw] at hiw hrw
    exact ⟨p, rfl, hp.of_agree ha, hiw, hrw⟩

/-! ### Numbers -/

def OpensNumber (digits : Text) : Prop :=
  ∃ sign d ds, digits = sign ++ d :: ds ∧ (sign = [] ∨ sign = ['+'] ∨ sign = ['-']) ∧
    (d.isDigit = true ∨ (d = '.' ∧ ds.head?.any Char.isDigit = true))

theorem not_isNameStart_of_isDigit {c : Char} (h : c.isDigit = true) : isNameStart c = false := by
  have hu : c ≠ '_' := by
    rintro rfl
    contradiction
  have hd : 48 ≤ c.toNat ∧ c.toNat ≤ 57 := Char.isDigit_iff_toNat.mp h
  simp only [isNameStart, isAscii, Bool.or_eq_false_iff, Text.isAlpha_eq_false_iff,
    beq_eq_false_iff_ne, Bool.not_eq_false', decide_eq_true_eq]
  refine ⟨⟨?_, hu⟩, ?_⟩ <;> omega

theorem head_mantissa {t m rest : Text} (h : readMantissa? t = some (m, rest)) :
    ∃ d ds, m = d :: ds ∧ (d.isDigit = true ∨ (d = '.' ∧ ds.head?.any Char.isDigit = true)) := by
  have hall {u : Text} {d : Char} {ds : Text} (hw : u.takeWhile Char.isDigit = d :: ds) :
      d.isDigit = true :=
    List.all_eq_true.mp (hw ▸ List.all_takeWhile) d List.mem_cons_self
  unfold readMantissa? at h
  dsimp only at h
  cases hw : t.takeWhile Char.isDigit with
  | nil =>
    rw [hw] at h
    split at h
    next hp =>
      cases h
      obtain ⟨d, ds, hd⟩ := List.exists_cons_of_ne_nil hp.2
      refine ⟨'.', _, rfl, .inr ⟨rfl, ?_⟩⟩
      rw [hd]
      exact hall hd
    next => contradiction
  | cons d ds =>
    rw [hw] at h
    split at h
    next =>
      cases h
      exact ⟨d, _, rfl, .inl (hall hw)⟩
    next =>
      cases h
      exact ⟨d, ds, rfl, .inl (hall hw)⟩

theorem opensNumber_of_readNumber? {t digits rest : Text}
    (h : readNumber? t = some (digits, rest)) : OpensNumber digits := by
  obtain ⟨⟨m, r⟩, hm, he⟩ := Option.map_eq_some_iff.mp h
  cases he
  obtain ⟨d, ds, rfl, hd⟩ := head_mantissa hm
  refine ⟨(readSign t).1, d, ds ++ (readExponent r).1, rfl, ?_, ?_⟩
  · cases t with
    | nil => exact .inl rfl
    | cons c t =>
      rw [readSign]
      split
      next hc => rcases hc with rfl | rfl <;> simp
      next => exact .inl rfl
  · refine hd.imp_right fun hp => ⟨hp.1, ?_⟩
    cases ds with
    | nil => exact absurd hp.2 (by decide)
    | cons e ds => exact hp.2

namespace OpensNumber

variable {digits : Text}

theorem startsIdent_eq_false (h : OpensNumber digits) (x : Text) :
    startsIdent (digits ++ x) = false := by
  obtain ⟨sign, d, ds, rfl, hs, hd⟩ := h
  have hn : isNameStart d = false ∧ d ≠ '-' ∧ d ≠ '\\' := by
    rcases hd with hd | ⟨rfl, -⟩
    · refine ⟨not_isNameStart_of_isDigit hd, ?_, ?_⟩ <;>
        · rintro rfl
          contradiction
    · decide
  rcases hs with rfl | rfl | rfl
  · exact (Agree.startsIdent_cons hn.2.1 hn.2.2 _).trans hn.1
  · exact (Agree.startsIdent_cons (by decide) (by decide) _).trans rfl
  · rw [List.append_assoc, List.singleton_append, Agree.startsIdent_hyphen]
    simp [hn]

theorem agree (h : OpensNumber digits) (v w : Text) : Agree (digits ++ v) (digits ++ w) := by
  obtain ⟨sign, d, ds, rfl, hs, hd⟩ := h
  have ht : Agree (d :: ds ++ v) (d :: ds ++ w) := by
    rcases hd with hd | ⟨rfl, hd⟩
    · exact .shut (by simp [isShut, hd])
    · cases ds with
      | nil => contradiction
      | cons e ds =>
        have he : e.isDigit = true := hd
        exact .same (by decide) (.shut (by simp [isShut, he]))
  rw [List.append_assoc, List.append_assoc]
  refine ht.append ?_
  rcases hs with rfl | rfl | rfl <;> simp

theorem exists_proper (h : OpensNumber digits) :
    ∃ c p, digits = c :: p ∧ ∀ x, Proper c (p ++ x) := by
  have hi := h.startsIdent_eq_false
  obtain ⟨sign, d, ds, rfl, hs, hd⟩ := h
  obtain ⟨c, p, he, hc⟩ : ∃ c p, sign ++ d :: ds = c :: p ∧
      (c.isDigit = true ∨ c = '.' ∨ c = '+' ∨ c = '-') := by
    rcases hs with rfl | rfl | rfl
    · exact ⟨d, ds, rfl, hd.imp_right fun hp => .inl hp.1⟩
    · exact ⟨'+', d :: ds, rfl, by simp⟩
    · exact ⟨'-', d :: ds, rfl, by simp⟩
  have hx : isSpace c = false ∧ ¬(c = 'U' ∨ c = 'u') := by
    rcases hc with hc | rfl | rfl | rfl
    · refine ⟨eq_false_of_ne_true fun hs => ?_, ?_⟩
      · rcases isSpace_cases hs with rfl | rfl | rfl <;> contradiction
      · rintro (rfl | rfl) <;> contradiction
    all_goals decide
  refine ⟨c, p, he, fun x => ⟨hx.1, Agree.readRange?_eq_none_iff.mpr fun hu => hx.2 hu.1, ?_⟩⟩
  -- the mark would start like an identifier
  rw [Option.eq_none_iff_forall_ne_some]
  intro rest hr
  have hst := hi x
  rw [he, List.cons_append, Text.dropPrefix?_eq_some.mp hr] at hst
  contradiction

end OpensNumber

theorem head?_of_readNumber? {t digits rest : Text} (h : readNumber? t = some (digits, rest)) :
    rest.head?.any Char.isDigit = false := by
  have hd : ∀ u : Text, (u.dropWhile Char.isDigit).head?.any Char.isDigit = false :=
    Text.head?_dropWhile Char.isDigit
  obtain ⟨⟨m, r⟩, hm, he⟩ := Option.map_eq_some_iff.mp h
  cases he
  have hr : r.head?.any Char.isDigit = false := by
    unfold readMantissa? at hm
    dsimp only at hm
    split at hm
    next =>
      cases hm
      exact hd _
    next =>
      split at hm
      next => contradiction
      next =>
        cases hm
        exact hd _
  cases r with
  | nil => rfl
  | cons c r =>
    rw [readExponent]
    split
    next => exact hd _
    next => exact hr

theorem startsExponent_eq_false_of_ident {t : Text} (h : startsIdent t = false) :
    startsExponent t = false := by
  cases he : (readExponent t).1 with
  | nil => simp [startsExponent, he]
  | cons c e =>
    have ht := readExponent_append t
    rw [he, List.cons_append] at ht
    rw [← ht] at h
    rcases head_of_readExponent he with rfl | rfl <;> contradiction

theorem lexes_ofNumber {t digits u x : Text} (h : readNumber? t = some (digits, u))
    (hx : x.head?.any Char.isDigit = false)
    (hm : startsMantissa x = true → startsMantissa u = true)
    (he : startsExponent x = true → startsExponent u = true) :
    Lexes (digits ++ x) (ofNumber digits x).1 (ofNumber digits x).2 := by
  have ho := opensNumber_of_readNumber? h
  obtain ⟨c, p, rfl, hp⟩ := ho.exists_proper
  have hi := ho.startsIdent_eq_false x
  rw [← (readNumber?_append h).1] at h
  have hn := readNumber?_append_of h hx hm he
  exact ⟨c, p ++ x, rfl, (hp x).next_of_number hi hn⟩

/-! ### Tokens -/

section

variable {c : Char} {t u w : Text}

theorem lexes_whitespace (hs : isSpace c = true) (hw : w.head?.any isSpace = false) :
    Lexes (c :: t.takeWhile isSpace ++ w) (.token (.whitespace (c :: t.takeWhile isSpace))) w := by
  have hall : ∀ d ∈ t.takeWhile isSpace, isSpace d = true := List.all_eq_true.mp List.all_takeWhile
  obtain ⟨ht, hd⟩ := takeWhile_append_of_all hall hw
  have h := Step.whitespace (t := t.takeWhile isSpace ++ w) hs
  rw [ht, hd] at h
  exact h.lexes

theorem lexes_ident {name : Text} (hp : Proper c t) (hi : startsIdent (c :: t) = true)
    (hr : readName (c :: t) = (name, u)) (hh : u.head? ≠ some '(')
    (ht : (writeIdent name).isPrefixOf (c :: t) = true) (ha : Agree u w) :
    Lexes (writeIdent name ++ w) (.token (.ident name)) w := by
  obtain ⟨p, hw, hn⟩ := exists_nameStarts hp hi hr ht ha
  rw [hw]
  have hhw : w.head? ≠ some '(' := fun h => hh (ha.head? (by decide) (by decide) h)
  exact (Step.ident hn.proper hn.ident hn.read hhw).lexes

theorem lexes_url {value : Text} (h : ∀ d ∈ value, spoilsWrittenUrl d = false) (w : Text) :
    Lexes ("url(" ++ writeUrl value ++ [')'] ++ w) (.token (.url value true)) w := by
  have ho : OpensUrl 'u' ('r' :: 'l' :: '(' :: (writeUrl value ++ ')' :: w)) "url"
      (writeUrl value ++ ')' :: w) := by
    refine ⟨⟨rfl, rfl, rfl⟩, rfl, ?_, by decide, isBareUrl_writeUrl value w⟩
    rw [readName_nameChar (by decide), readName_nameChar (by decide), readName_nameChar (by decide),
      readName_of_not_startsName rfl]
    rfl
  have hs := (Step.url ho (readUrl_writeUrl h w)).lexes
  rw [List.append_assoc, List.append_assoc]
  exact hs

theorem exists_writeRange (r : CodeRange) : ∃ p, Token.writeRange r = 'U' :: p := by
  unfold Token.writeRange
  split <;> exact ⟨_, rfl⟩

theorem lexes_range {r : CodeRange} (hr : r.Bounded) (hw : EndsRange w) :
    Lexes (Token.writeRange r ++ w) (.token (.codeRange r)) w := by
  have h := readRange?_writeRange hr hw
  obtain ⟨p, he⟩ := exists_writeRange r
  rw [he] at h ⊢
  exact (Step.codeRange (by decide) h).lexes

theorem lexes_number {digits : Text} (hn : readNumber? (c :: t) = some (digits, u))
    (hi : startsIdent u = false) (hh : u.head? ≠ some '%') (ha : Agree u w) :
    Lexes (digits ++ w) (.token (.number digits)) w := by
  have hiw := ha.startsIdent hi
  have hm : startsMantissa w = true → startsMantissa u = true := fun hm =>
    eq_true_of_ne_false fun hf => by
      rw [ha.startsMantissa hf] at hm
      contradiction
  have hl := lexes_ofNumber hn (ha.any_head? (by decide) (by decide) (head?_of_readNumber? hn)) hm
    (fun he => absurd he (ne_true_of_eq_false (startsExponent_eq_false_of_ident hiw)))
  have ho : ofNumber digits w = (.token (.number digits), w) := by
    unfold ofNumber
    rw [hiw, if_neg Bool.false_ne_true]
    split
    next => exact absurd (ha.head? (by decide) (by decide) rfl) hh
    next => rfl
  rwa [ho] at hl

theorem lexes_percentage {digits : Text} (hn : readNumber? (c :: t) = some (digits, u)) (w : Text) :
    Lexes (digits ++ ['%'] ++ w) (.token (.percentage digits)) w := by
  rw [List.append_assoc]
  exact lexes_ofNumber (x := '%' :: w) hn rfl (fun hm => absurd hm (by simp [startsMantissa]))
    (fun he => absurd he (ne_true_of_eq_false (startsExponent_cons (by decide) w)))

theorem lexes_dimension {digits unit : Text} (hn : readNumber? (c :: t) = some (digits, u))
    (hu : isPlainUnit unit = true) (hw : startsName w = false) :
    Lexes (digits ++ Token.writeUnit unit ++ w) (.token (.dimension digits unit)) w := by
  have hne : unit ≠ [] := by
    rintro rfl
    contradiction
  have hi := startsIdent_writeIdent hne w
  obtain ⟨d, v, hv, hd⟩ : ∃ d v, writeIdent unit = d :: v ∧ d.isDigit = false ∧ d ≠ '.' := by
    cases hv : writeIdent unit with
    | nil =>
      have hs := startsIdent_writeIdent hne []
      rw [hv] at hs
      contradiction
    | cons d v =>
      refine ⟨d, v, rfl, ?_⟩
      rcases head?_writeIdent (hv ▸ rfl : (writeIdent unit).head? = some d) with
        rfl | rfl | ⟨-, hs⟩
      · decide
      · decide
      · refine ⟨eq_false_of_ne_true fun hd => ?_, ?_⟩
        · rw [not_isNameStart_of_isDigit hd] at hs
          contradiction
        · rintro rfl
          contradiction
  have hm : startsMantissa (writeIdent unit ++ w) = false := by
    rw [hv, List.cons_append, startsMantissa]
    simp [hd]
  have hl := lexes_ofNumber (x := writeIdent unit ++ w) hn (by rw [hv]; exact hd.1)
    (fun h => absurd h (ne_true_of_eq_false hm))
    (fun he => absurd he (ne_true_of_eq_false (startsExponent_writeIdent hu w)))
  have ho : ofNumber digits (writeIdent unit ++ w) = (.token (.dimension digits unit), w) := by
    unfold ofNumber
    rw [if_pos hi, readName_writeIdent_of hw]
  rw [writeUnit_eq hu, List.append_assoc]
  rwa [ho] at hl

theorem lexes_atKeyword {name : Text} (hn : name ≠ []) (hw : startsName w = false) :
    Lexes ('@' :: writeIdent name ++ w) (.token (.atKeyword name)) w := by
  have h := (Step.atKeyword (startsIdent_writeIdent hn w)).lexes
  rwa [readName_writeIdent_of hw] at h

theorem readName_ne_nil (h : startsName t = true) : (readName t).1 ≠ [] := by
  intro hn
  have hs := not_startsName_readName t
  rw [eq_of_readName_eq_nil hn, h] at hs
  contradiction

theorem startsName_of_startsIdent (h : startsIdent t = true) : startsName t = true := by
  refine eq_true_of_ne_false fun hs => ?_
  have hl := readName_of_startsIdent h
  rw [readName_of_not_startsName hs] at hl
  exact Nat.lt_irrefl _ hl

theorem readName_of_startsName (hn : startsName (c :: t) = true)
    (hb : ¬(c = '\\' ∧ escapes t = true)) : isNameChar c = true ∧
      writeName (readName (c :: t)).1 = c :: writeName (readName t).1 := by
  have hc : isNameChar c = true := by
    rw [startsName, Bool.or_eq_true, Bool.and_eq_true, beq_iff_eq] at hn
    exact hn.resolve_right hb
  have hwc : writeNameChar c = [c] := if_pos hc
  have hf : writeName (c :: (readName t).1) = writeNameChar c ++ writeName (readName t).1 :=
    List.flatMap_cons
  rw [readName_nameChar hc, hf, hwc]
  exact ⟨hc, rfl⟩

theorem startsIdent_hyphen_writeName (hi : startsIdent ('-' :: t) = false)
    (hw : startsName w = false) : startsIdent ('-' :: (writeName (readName t).1 ++ w)) = false := by
  rw [Agree.startsIdent_hyphen, Bool.or_eq_false_iff] at hi
  cases hn : startsName t with
  | false =>
    have hwr : writeName (readName t).1 ++ w = w := by
      rw [readName_of_not_startsName hn]
      rfl
    rw [hwr, Agree.startsIdent_hyphen]
    cases w with
    | nil => rfl
    | cons c w =>
      rw [startsName, Bool.or_eq_false_iff] at hw
      have hc := hw.1
      simp only [isNameChar, Bool.or_eq_false_iff] at hc
      simpa [hc] using hw.2
  | true =>
    cases t with
    | nil => contradiction
    | cons c t =>
      have hb : ¬(c = '\\' ∧ escapes t = true) := fun h => by
        simp [h] at hi
      obtain ⟨hc, hwr⟩ := readName_of_startsName hn hb
      have hne : c ≠ '\\' := by
        rintro rfl
        contradiction
      rw [hwr, Agree.startsIdent_hyphen]
      simpa [hne] using hi.1

/-- A name that is no identifier starts with a digit or a hyphen, and it is none either where it
is written. -/
theorem startsIdent_writeName (hn : startsName t = true) (hi : startsIdent t = false)
    (hw : startsName w = false) : startsIdent (writeName (readName t).1 ++ w) = false ∧
      startsName (writeName (readName t).1 ++ w) = true := by
  cases t with
  | nil => contradiction
  | cons c t =>
    have hb : ¬(c = '\\' ∧ escapes t = true) := by
      rintro ⟨rfl, he⟩
      exact absurd he (ne_true_of_eq_false hi)
    obtain ⟨hc, hwr⟩ := readName_of_startsName hn hb
    have hne : c ≠ '\\' := by
      rintro rfl
      contradiction
    rw [hwr, List.cons_append]
    refine ⟨?_, by simp [startsName, hc]⟩
    by_cases hh : c = '-'
    · subst hh
      exact startsIdent_hyphen_writeName hi hw
    · rw [Agree.startsIdent_cons hh hne] at hi ⊢
      exact hi

theorem lexes_hash (hn : startsName t = true) (hw : startsName w = false) :
    Lexes (Token.write (.hash (readName t).1 (startsIdent t)) ++ w)
      (.token (.hash (readName t).1 (startsIdent t))) w := by
  have hread {v : Text} (hr : readName v = ((readName t).1, w)) (hi : startsIdent v = startsIdent t)
      (hs : startsName v = true) :
      Lexes ('#' :: v) (.token (.hash (readName t).1 (startsIdent t))) w := by
    have h := (Step.hash hs).lexes
    rwa [hr, hi] at h
  cases hi : startsIdent t with
  | true =>
    have hne := readName_ne_nil hn
    rw [hi] at hread
    refine hread (readName_writeIdent_of hw) (startsIdent_writeIdent hne w) ?_
    exact startsName_of_startsIdent (startsIdent_writeIdent hne w)
  | false =>
    rw [hi] at hread
    have hr : readName (writeName (readName t).1 ++ w) = ((readName t).1, w) := by
      rw [readName_writeName, readName_of_not_startsName hw, List.append_nil]
    obtain ⟨hf, hs⟩ := startsIdent_writeName hn hi hw
    exact hread hr hf hs

theorem lexes_string (value w : Text) :
    Lexes ('"' :: writeString value ++ ['"'] ++ w) (.token (.string value true)) w := by
  have h := (Step.string (c := '"') (by decide) (readString_writeString value w)).lexes
  rw [List.append_assoc]
  exact h

theorem lexes_comment {text : Text} (h : Text.occurs "*/" text = false) (w : Text) :
    Lexes ("/*" ++ text ++ "*/" ++ w) (.token (.comment text)) w := by
  have hb : Text.breakOn "*/" (text ++ ("*/" ++ w)) = some (text, w) :=
    Text.breakOn_of_not_occurs (by decide) w h
  have hs := (Step.comment hb).lexes
  rw [List.append_assoc, List.append_assoc]
  exact hs

theorem lexes_sign (hs : Symbolic c u) (hc : isSign c = true)
    (hcomment : Text.dropPrefix? "/*" (c :: u) = none)
    (hcdo : Text.dropPrefix? "<!--" (c :: u) = none)
    (hbars : Text.dropPrefix? "||" (c :: u) = none)
    (hj : ¬(joinsEquals c = true ∧ u.head? = some '=')) (hb : c ≠ '\\') (ha : Agree u w) :
    Lexes (c :: w) (.token (.literal [c])) w := by
  have hac := ha.append (p := [c]) (by simpa using Ne.symm hb)
  have hsym : Symbolic c w := ⟨hs.toProper.of_agree (p := []) ha, hac.startsIdent hs.ident,
    ha.readNumber?_eq_none hs.number⟩
  refine (Step.sign hsym hc ?_ ?_ ?_ ?_).lexes
  · have hd (v : Text) : Text.dropPrefix? "/*" (c :: v) =
        if '/' = c then Text.dropPrefix? ['*'] v else none := rfl
    rw [hd] at hcomment ⊢
    split
    next h =>
      rw [if_pos h] at hcomment
      exact ha.dropPrefix?_eq_none (by decide) hcomment
    next => rfl
  · exact ha.append_dropPrefix?_eq_none (p := [c]) (by decide) hcdo
  · exact ha.append_dropPrefix?_eq_none (p := [c]) (by decide) hbars
  · exact fun h => hj ⟨h.1, ha.head? (by decide) (by decide) h.2⟩

theorem lexes_single (h : c ∈ [':', ';', ',', '!']) (w : Text) :
    Lexes (c :: w) (.token (.literal [c])) w := by
  have hall : ∀ c ∈ [':', ';', ',', '!'], isSymbol c = true ∧ isSign c = true ∧
      c ≠ '/' ∧ c ≠ '<' ∧ c ≠ '|' ∧ joinsEquals c = false := by decide
  obtain ⟨hs, hg, hd, hl, hb, hj⟩ := hall c h
  have hp {d : Char} {pre : Text} (hd : c ≠ d) : Text.dropPrefix? (d :: pre) (c :: w) = none := by
    rw [Text.dropPrefix?, if_neg (Ne.symm hd)]
  exact (Step.sign (symbolic_of_isSymbol hs w) hg (hp hd) (hp hl) (hp hb)
    (fun h => by simp [hj] at h)).lexes

end

/-- What is written for a tidy token is read as that token. -/
theorem lexes_token {c : Char} {t u w : Text} {tok : Token} (h : Step c t (.token tok) u)
    (ht : tok.isTidy (c :: t) = true) (ha : Agree u w)
    (hblank : ∀ text, tok = .whitespace text → w.head?.any isSpace = false)
    (hrange : ∀ r, tok = .codeRange r → EndsRange w) :
    Lexes (tok.write ++ w) (.token tok) w := by
  cases h with
  | whitespace hs => exact lexes_whitespace hs (hblank _ rfl)
  | codeRange hs hr => exact lexes_range (bounded_of_readRange? hr) (hrange _ rfl)
  | closingMark => exact Step.closingMark.lexes
  | ident hp hi hr hh => exact lexes_ident hp hi hr hh ht ha
  | @url _ _ _ _ value _ ho hv =>
    have hs : ∀ d ∈ value, spoilsWrittenUrl d = false := by
      simpa using ((Bool.and_eq_true _ _).mp ht).2
    exact lexes_url hs w
  | openUrl => contradiction
  | badUrl => contradiction
  | number hp hi hn hr hh => exact lexes_number hn hr hh ha
  | percentage hp hi hn => exact lexes_percentage hn w
  | dimension hp hi hn hr => exact lexes_dimension hn ht (ha.startsName (not_startsName_readName _))
  | atKeyword hi =>
    have hne := readName_ne_nil (startsName_of_startsIdent hi)
    exact lexes_atKeyword hne (ha.startsName (not_startsName_readName _))
  | atSign hi => exact (Step.atSign (ha.startsIdent hi)).lexes
  | hash hn => exact lexes_hash hn (ha.startsName (not_startsName_readName _))
  | hashSign hn => exact (Step.hashSign (ha.startsName hn)).lexes
  | string hq hr => exact lexes_string _ w
  | openString => contradiction
  | badString => contradiction
  | comment hb => exact lexes_comment (Text.not_occurs_of_breakOn hb) w
  | openComment hb => exact lexes_comment (Text.breakOn_eq_none_iff.mp hb) w
  | openingMark => exact Step.openingMark.lexes
  | bars => exact Step.bars.lexes
  | joined hj => exact (Step.joined hj).lexes
  | sign hs hc hcomment hcdo hbars hj =>
    exact lexes_sign hs hc hcomment hcdo hbars hj (by rintro rfl; contradiction) ha

theorem stopped_cons {c : Char} (h : c ∈ stops) (t : Text) : Stopped (c :: t) := by
  intro d hd
  obtain rfl := Option.some.inj hd
  exact h

theorem agree_token {c : Char} {t u w : Text} {tok : Token} (h : Step c t (.token tok) u)
    (ht : tok.isTidy (c :: t) = true) (ha : Agree u w) : Agree (c :: t) (tok.write ++ w) := by
  have hnumber {digits x y : Text} (hn : readNumber? (c :: t) = some (digits, x)) :
      Agree (c :: t) (digits ++ y) := by
    rw [← (readNumber?_append hn).1]
    exact (opensNumber_of_readNumber? hn).agree x y
  cases h with
  | whitespace hs =>
    refine .stop (stopped_cons ?_ _)
    rcases isSpace_cases hs with rfl | rfl | rfl <;> decide
  | @codeRange _ _ _ r hs hr =>
    obtain ⟨p, hp⟩ := exists_writeRange r
    change Agree (c :: t) (Token.writeRange r ++ w)
    rw [hp]
    refine .letter ?_ (by decide)
    rcases Agree.readRange?_cases hr with rfl | rfl <;> decide
  | closingMark => exact ha.append (p := "-->") (by decide)
  | ident hp hi hr hh =>
    rw [eq_append_of_isPrefix hr ht]
    exact agree_writeIdent _ ha
  | @url _ _ _ _ value =>
    have hc : c = 'u' ∨ c = 'U' := by
      simp only [Token.isTidy, Bool.and_eq_true] at ht
      simpa using ht.1.2
    refine .letter (d := 'u') ?_ (by decide)
    rcases hc with rfl | rfl <;> decide
  | openUrl => contradiction
  | badUrl => contradiction
  | number hp hi hn hr hh => exact hnumber hn
  | percentage hp hi hn =>
    have h := hnumber (y := ['%'] ++ w) hn
    rwa [← List.append_assoc] at h
  | @dimension _ _ _ rest hp hi hn hr =>
    have h := hnumber (y := Token.writeUnit (readName rest).1 ++ w) hn
    rwa [← List.append_assoc] at h
  | atKeyword hi => exact .shut (by decide)
  | atSign hi => exact .shut (by decide)
  | hash hn => exact .shut (by decide)
  | hashSign hn => exact .shut (by decide)
  | string hq hr => exact .stop (stopped_cons (by decide) _)
  | openString => contradiction
  | badString => contradiction
  | comment hb => exact .stop (stopped_cons (by decide) _)
  | openComment hb => exact .stop (stopped_cons (by decide) _)
  | openingMark => exact ha.append (p := "<!--") (by decide)
  | bars => exact ha.append (p := "||") (by decide)
  | @joined _ _ hj =>
    refine ha.append (p := [c, '=']) ?_
    rw [List.mem_cons, not_or]
    refine ⟨?_, by decide⟩
    rintro rfl
    contradiction
  | sign hs hc hcomment hcdo hbars hj =>
    exact .same (by rintro rfl; contradiction) ha

end Lexeme

/-! ### Openings -/

def Opener.written : Opener → Text
  | bracket b => [b.opening]
  | function name => writeIdent name ++ ['(']

def Opener.isTidy (place : Text) : Opener → Bool
  | bracket _ => true
  | function name => (writeIdent name).isPrefixOf place

namespace Lexeme

theorem lexes_opening {c : Char} {t u w : Text} {o : Opener} (h : Step c t (.opening o) u)
    (ht : o.isTidy (c :: t) = true) (hu : isBareUrl u = false → isBareUrl w = false) :
    Lexes (o.written ++ w) (.opening o) w ∧ Agree (c :: t) (o.written ++ w) := by
  cases h with
  | @function _ _ name _ hp hi hr hn =>
    have ha : Agree ('(' :: u) ('(' :: w) := .shut (by decide)
    obtain ⟨p, hw, hs⟩ := exists_nameStarts hp hi hr ht ha
    have hnw : ¬(Text.lowerAscii name = "url" ∧ isBareUrl w = true) := by
      rintro ⟨hl, hb⟩
      have hf := hu (eq_false_of_ne_true fun hb => hn ⟨hl, hb⟩)
      rw [hf] at hb
      contradiction
    have hx : (Opener.function name).written ++ w = writeIdent name ++ '(' :: w := List.append_assoc ..
    rw [hx, eq_append_of_isPrefix hr ht]
    refine ⟨?_, agree_writeIdent name ha⟩
    rw [hw]
    exact (Step.function hs.proper hs.ident hs.read hnw).lexes
  | @opening b =>
    refine ⟨Step.opening.lexes, ?_⟩
    cases b with
    | curly => exact .stop (stopped_cons (by decide) _)
    | round => exact .shut (by decide)
    | square => exact .shut (by decide)

end Lexeme

end CustomProperties.Syntax
