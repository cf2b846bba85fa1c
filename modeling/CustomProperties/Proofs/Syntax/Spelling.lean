import CustomProperties.Proofs.Syntax.Numerals
import CustomProperties.Proofs.Text.Occurrence

/-! # What is written is read back

Names, strings and addresses are written with as many escapes as it takes to read the same value
again, up to the text that follows them.
-/

namespace CustomProperties.Syntax

/-! ### Escapes -/

theorem readEscape_of_not_isHexDigit {c : Char} (h : isHexDigit c = false) (t : Text) :
    readEscape (c :: t) = (c, t) := by
  unfold readEscape
  simp [h]

theorem readEscape_of_digits {ds : Text} (hd : ∀ d ∈ ds, isHexDigit d = true) (hn : ds ≠ [])
    (hl : ds.length ≤ 6) (t : Text) :
    readEscape (ds ++ ' ' :: t) = (charOfCode (ofHexDigits ds), t) := by
  have ht : ((ds ++ ' ' :: t).take 6).takeWhile isHexDigit = ds := by
    rw [List.take_append, List.take_of_length_le hl]
    refine (takeWhile_append_of_all hd ?_).1
    cases 6 - ds.length <;> rfl
  have hr : dropSpace ((ds ++ ' ' :: t).drop ds.length) = t := by
    rw [List.drop_left]
    rfl
  unfold readEscape
  rw [ht]
  split
  next h _ => exact absurd rfl hn
  next h _ => exact absurd rfl hn
  next => rw [hr]

theorem escapes_cons {c : Char} (h : c ≠ '\n') (t : Text) : escapes (c :: t) = true := by
  unfold escapes
  split
  next he =>
    cases he
    contradiction
  next => rfl

theorem escapes_of_digits {ds : Text} (hd : ∀ d ∈ ds, isHexDigit d = true) (hn : ds ≠ [])
    (t : Text) : escapes (ds ++ t) = true := by
  obtain ⟨d, ds, rfl⟩ := List.exists_cons_of_ne_nil hn
  refine escapes_cons ?_ _
  rintro rfl
  exact absurd (hd '\n' List.mem_cons_self) (by decide)

def Escape (c : Char) (u : Text) : Prop :=
  ∃ v, u = '\\' :: v ∧ v ≠ [] ∧ ∀ t, escapes (v ++ t) = true ∧ readEscape (v ++ t) = (c, t)

theorem escape_self {c : Char} (h : isHexDigit c = false) (hn : c ≠ '\n') : Escape c ['\\', c] :=
  ⟨[c], rfl, nofun, fun t => ⟨escapes_cons hn t, readEscape_of_not_isHexDigit h t⟩⟩

theorem escape_digits {ds : Text} (hd : ∀ d ∈ ds, isHexDigit d = true) (hn : ds ≠ [])
    (hl : ds.length ≤ 6) : Escape (charOfCode (ofHexDigits ds)) ('\\' :: ds ++ [' ']) := by
  refine ⟨ds ++ [' '], rfl, by simp, fun t => ?_⟩
  rw [List.append_assoc]
  exact ⟨escapes_of_digits hd hn _, readEscape_of_digits hd hn hl t⟩

theorem escape_break {c : Char} {u : Text} (h : breakEscape? c = some u) : Escape c u := by
  unfold breakEscape? at h
  split at h
  next hc =>
    cases h
    rw [hc]
    exact @escape_digits ['A'] (by decide) (by decide) (by decide)
  next =>
    split at h
    next hc =>
      cases h
      rw [hc]
      exact @escape_digits ['D'] (by decide) (by decide) (by decide)
    next =>
      split at h
      next hc =>
        cases h
        rw [hc]
        exact @escape_digits ['C'] (by decide) (by decide) (by decide)
      next => contradiction

theorem ne_lineFeed_of_breakEscape? {c : Char} (h : breakEscape? c = none) : c ≠ '\n' := by
  rintro rfl
  contradiction

theorem escape_break_getD {c : Char} (h : isHexDigit c = false) :
    Escape c ((breakEscape? c).getD ['\\', c]) := by
  cases hb : breakEscape? c with
  | none => exact escape_self h (ne_lineFeed_of_breakEscape? hb)
  | some u => exact escape_break hb

/-! ### Names -/

theorem isHexDigit_eq_false {c : Char} (h : isNameStart c = false) (hd : c.isDigit = false) :
    isHexDigit c = false := by
  rw [isNameStart, Bool.or_eq_false_iff, Bool.or_eq_false_iff, Text.isAlpha_eq_false_iff] at h
  simp only [isHexDigit, hd, Bool.false_or, Bool.or_eq_false_iff, Bool.and_eq_false_iff,
    decide_eq_false_iff_not, Char.le_def, UInt32.le_iff_toNat_le]
  have hv : 'a'.val.toNat = 97 ∧ 'f'.val.toNat = 102 ∧ 'A'.val.toNat = 65 ∧ 'F'.val.toNat = 70 := by
    decide
  have hc : c.toNat = c.val.toNat := rfl
  omega

theorem readName_of_not_startsName {t : Text} (h : Lexeme.startsName t = false) :
    readName t = ([], t) := by
  cases t with
  | nil => rw [readName]
  | cons c t =>
    rw [Lexeme.startsName, Bool.or_eq_false_iff] at h
    rw [readName, if_neg (by simp [h.1]), if_neg]
    simpa using h.2

theorem not_startsName_readName (t : Text) : Lexeme.startsName (readName t).2 = false := by
  fun_induction readName t with
  | case1 => rfl
  | case2 c t _ name rest h ih => rwa [h] at ih
  | case3 c t _ _ name rest h ih => rwa [h] at ih
  | case4 c t hn hb => simpa [Lexeme.startsName, hn] using hb

theorem readName_escape {c : Char} {u : Text} (h : Escape c u) (t : Text) :
    readName (u ++ t) = (c :: (readName t).1, (readName t).2) := by
  obtain ⟨v, rfl, -, hv⟩ := h
  obtain ⟨he, hr⟩ := hv t
  rw [List.cons_append, readName, if_neg (by decide), if_pos ⟨rfl, he⟩, hr]

theorem readName_nameChar {c : Char} (h : isNameChar c = true) (t : Text) :
    readName (c :: t) = (c :: (readName t).1, (readName t).2) := by
  rw [readName, if_pos h]

theorem readName_writeNameChar (c : Char) (t : Text) :
    readName (writeNameChar c ++ t) = (c :: (readName t).1, (readName t).2) := by
  unfold writeNameChar
  split
  next h => exact readName_nameChar h t
  next h =>
    have hc : isNameStart c = false ∧ c.isDigit = false := by
      simp only [isNameChar, Bool.or_eq_true, not_or, Bool.not_eq_true] at h
      exact h.1
    exact readName_escape (escape_break_getD (isHexDigit_eq_false hc.1 hc.2)) t

theorem readName_writeName (name t : Text) :
    readName (writeName name ++ t) = (name ++ (readName t).1, (readName t).2) := by
  induction name with
  | nil => rfl
  | cons c name ih =>
    have hw : writeName (c :: name) = writeNameChar c ++ writeName name := List.flatMap_cons
    rw [hw, List.append_assoc, readName_writeNameChar, ih]
    rfl

theorem escape_digit {c : Char} (h : c.isDigit = true) :
    Escape c ('\\' :: hexDigits c.toNat ++ [' ']) := by
  have hall : ∀ n ∈ List.range' 48 10, charOfCode (ofHexDigits (hexDigits n)) = Char.ofNat n ∧
      (∀ d ∈ hexDigits n, isHexDigit d = true) ∧ hexDigits n ≠ [] ∧ (hexDigits n).length ≤ 6 := by
    decide +kernel
  have hn : c.toNat ∈ List.range' 48 10 := by
    have hd : 48 ≤ c.toNat ∧ c.toNat ≤ 57 := Char.isDigit_iff_toNat.mp h
    rw [List.mem_range'_1]
    omega
  obtain ⟨hc, hd, he, hl⟩ := hall _ hn
  rw [Char.ofNat_toNat] at hc
  have hx := escape_digits hd he hl
  rwa [hc] at hx

theorem writeNameStart_cases (c : Char) :
    (isNameStart c = true ∧ writeNameStart c = [c]) ∨
      (isNameStart c = false ∧ Escape c (writeNameStart c)) := by
  unfold writeNameStart
  split
  next h => exact .inl ⟨h, rfl⟩
  next h =>
    refine .inr ⟨eq_false_of_ne_true h, ?_⟩
    split
    next hd => exact escape_digit hd
    next hd =>
      exact escape_break_getD (isHexDigit_eq_false (eq_false_of_ne_true h) (eq_false_of_ne_true hd))

theorem readName_writeNameStart (c : Char) (t : Text) :
    readName (writeNameStart c ++ t) = (c :: (readName t).1, (readName t).2) := by
  rcases writeNameStart_cases c with ⟨h, hw⟩ | ⟨-, h⟩
  · rw [hw]
    exact readName_nameChar (by simp [isNameChar, h]) t
  · exact readName_escape h t

theorem readName_writeIdent (name t : Text) :
    readName (writeIdent name ++ t) = (name ++ (readName t).1, (readName t).2) := by
  have hh : isNameChar '-' = true := rfl
  unfold writeIdent
  split
  next => exact readName_escape (escape_self (by decide) (by decide)) t
  next rest =>
    rw [List.cons_append, readName_nameChar hh, List.cons_append, readName_nameChar hh,
      readName_writeName]
    rfl
  next c rest _ _ =>
    rw [List.cons_append, List.cons_append, List.append_assoc, readName_nameChar hh,
      readName_writeNameStart, readName_writeName]
    rfl
  next c rest _ _ _ =>
    rw [List.append_assoc, readName_writeNameStart, readName_writeName]
    rfl
  next => rfl

theorem startsIdent_escape {c : Char} {u : Text} (h : Escape c u) (t : Text) :
    startsIdent (u ++ t) = true := by
  obtain ⟨v, rfl, -, hv⟩ := h
  exact (hv t).1

theorem startsIdent_writeNameStart (c : Char) (hc : c ≠ '-') (t : Text) :
    startsIdent (writeNameStart c ++ t) = true := by
  rcases writeNameStart_cases c with ⟨h, hw⟩ | ⟨-, h⟩
  · rw [hw]
    have hb : c ≠ '\\' := by
      rintro rfl
      contradiction
    exact (Agree.startsIdent_cons hc hb t).trans h
  · exact startsIdent_escape h t

theorem startsIdent_writeIdent {name : Text} (h : name ≠ []) (t : Text) :
    startsIdent (writeIdent name ++ t) = true := by
  unfold writeIdent
  split
  next => rfl
  next rest => rfl
  next c rest _ =>
    rcases writeNameStart_cases c with ⟨h, hw⟩ | ⟨-, v, hw, -, hv⟩
    · rw [hw, List.cons_append, List.cons_append, List.append_assoc, Agree.startsIdent_hyphen]
      simp [h]
    · rw [hw]
      have he := (hv (writeName rest ++ t)).1
      rw [List.cons_append, List.cons_append, List.append_assoc, List.cons_append,
        Agree.startsIdent_hyphen]
      simp [he]
  next c rest h₁ h₂ h₃ =>
    rw [List.append_assoc]
    refine startsIdent_writeNameStart c ?_ _
    rintro rfl
    cases rest with
    | nil => exact h₁ rfl rfl
    | cons d rest => exact h₃ d rest rfl rfl
  next => contradiction

/-! ### Units -/

/-- A unit that is no part of an exponent: behind a first letter `e` stands neither a sign nor a
digit, nor does the unit end there. -/
def isPlainUnit : Text → Bool
  | [] => false
  | c :: rest => !(c == 'e' || c == 'E') || rest.head?.any fun d => !(d == '-' || d.isDigit)

theorem writeUnit_eq {unit : Text} (h : isPlainUnit unit = true) :
    Token.writeUnit unit = writeIdent unit := by
  cases unit with
  | nil => contradiction
  | cons c rest =>
    refine if_neg ?_
    rintro ⟨hc, hr⟩
    cases rest with
    | nil => rcases hc with rfl | rfl <;> contradiction
    | cons d rest =>
      obtain rfl : d = '-' := by simpa using hr
      rcases hc with rfl | rfl <;> contradiction

theorem head?_writeNameStart {c d : Char} (h : (writeNameStart c).head? = some d) :
    d = '\\' ∨ (d = c ∧ isNameStart c = true) := by
  rcases writeNameStart_cases c with ⟨hc, hw⟩ | ⟨-, v, hw, -⟩
  · rw [hw] at h
    exact .inr ⟨(Option.some.inj h).symm, hc⟩
  · rw [hw] at h
    exact .inl (Option.some.inj h).symm

theorem head?_writeIdent {name : Text} {d : Char} (h : (writeIdent name).head? = some d) :
    d = '-' ∨ d = '\\' ∨ (name.head? = some d ∧ isNameStart d = true) := by
  have hh {c : Char} {rest : Text}
      (h : (writeNameStart c ++ writeName rest).head? = some d) :
      d = '\\' ∨ (d = c ∧ isNameStart c = true) := by
    refine head?_writeNameStart ?_
    rcases writeNameStart_cases c with ⟨-, hw⟩ | ⟨-, v, hw, -⟩ <;> rw [hw] at h ⊢ <;> exact h
  unfold writeIdent at h
  split at h
  next => exact .inr (.inl (Option.some.inj h).symm)
  next => exact .inl (Option.some.inj h).symm
  next => exact .inl (Option.some.inj h).symm
  next =>
    rcases hh h with hd | ⟨rfl, hc⟩
    · exact .inr (.inl hd)
    · exact .inr (.inr ⟨rfl, hc⟩)
  next => contradiction

theorem startsExponent_of_head {c d : Char} {t : Text} (hs : d ≠ '+' ∧ d ≠ '-')
    (hd : d.isDigit = false) : startsExponent (c :: d :: t) = false := by
  have hr : (readSign (d :: t)).2.takeWhile Char.isDigit = [] := by
    rw [readSign, if_neg (by simp [hs])]
    exact List.takeWhile_cons_of_neg (by simp [hd])
  rw [startsExponent, readExponent, if_neg (by simp [hr])]
  rfl

theorem writeNameChar_head {c : Char} (hc : c ≠ '-') (hd : c.isDigit = false) :
    ∃ d u, writeNameChar c = d :: u ∧ (d ≠ '+' ∧ d ≠ '-') ∧ d.isDigit = false := by
  unfold writeNameChar
  split
  next hn =>
    refine ⟨c, [], rfl, ⟨?_, hc⟩, hd⟩
    rintro rfl
    contradiction
  next hn =>
    simp only [isNameChar, Bool.or_eq_true, not_or, Bool.not_eq_true] at hn
    obtain ⟨v, hv, -⟩ := escape_break_getD (isHexDigit_eq_false hn.1.1 hd)
    exact ⟨'\\', v, hv, by decide, by decide⟩

theorem startsExponent_writeIdent {unit : Text} (h : isPlainUnit unit = true) (t : Text) :
    startsExponent (writeIdent unit ++ t) = false := by
  cases unit with
  | nil => contradiction
  | cons c rest =>
    by_cases hc : c = 'e' ∨ c = 'E'
    · have hw : writeIdent (c :: rest) = c :: writeName rest := by
        rcases hc with rfl | rfl <;> rfl
      cases rest with
      | nil => rcases hc with rfl | rfl <;> contradiction
      | cons d rest =>
        have hd : d ≠ '-' ∧ d.isDigit = false := by
          rcases hc with rfl | rfl <;> simpa [isPlainUnit] using h
        obtain ⟨b, u, hu, hs, hb⟩ := writeNameChar_head hd.1 hd.2
        have hn : writeName (d :: rest) = writeNameChar d ++ writeName rest := List.flatMap_cons
        rw [hw, hn, hu, List.cons_append, List.cons_append, List.cons_append]
        exact startsExponent_of_head hs hb
    · cases hw : writeIdent (c :: rest) with
      | nil =>
        have hs := startsIdent_writeIdent (List.cons_ne_nil c rest) []
        rw [hw] at hs
        contradiction
      | cons d u =>
        refine startsExponent_cons ?_ _
        rw [← not_or]
        rintro hd
        rcases head?_writeIdent (hw ▸ rfl : (writeIdent (c :: rest)).head? = some d) with
          rfl | rfl | ⟨he, -⟩
        · exact absurd hd (by decide)
        · exact absurd hd (by decide)
        · exact hc (Option.some.inj he ▸ hd)

/-! ### Strings -/

theorem readString_escape {c quote : Char} {u : Text} (h : Escape c u) (hq : quote ≠ '\\')
    (t : Text) : readString quote (u ++ t) = (readString quote t).cons c := by
  obtain ⟨v, rfl, hv, h⟩ := h
  obtain ⟨he, hr⟩ := h t
  obtain ⟨d, v, rfl⟩ := List.exists_cons_of_ne_nil hv
  rw [List.cons_append, readString.eq_def]
  dsimp only
  rw [if_neg (Ne.symm hq), if_pos rfl]
  split
  next hn => contradiction
  next hn =>
    rw [hn] at he
    contradiction
  next hn =>
    rw [← hn, hr]

theorem readString_writeStringChar (c : Char) (t : Text) :
    readString '"' (writeStringChar c ++ t) = (readString '"' t).cons c := by
  unfold writeStringChar
  split
  next hc =>
    refine readString_escape ?_ (by decide) t
    rcases hc with rfl | rfl <;> exact escape_self (by decide) (by decide)
  next hc =>
    cases hb : breakEscape? c with
    | some u => exact readString_escape (escape_break hb) (by decide) t
    | none =>
      rw [not_or] at hc
      rw [Option.getD_none, List.singleton_append, readString.eq_def]
      dsimp only
      rw [if_neg hc.1, if_neg hc.2, if_neg (ne_lineFeed_of_breakEscape? hb)]

theorem readString_writeString (value t : Text) :
    readString '"' (writeString value ++ '"' :: t) = .complete value t := by
  induction value with
  | nil =>
    rw [writeString, List.flatMap_nil, List.nil_append, readString.eq_def]
    exact if_pos rfl
  | cons c value ih =>
    have hw : writeString (c :: value) = writeStringChar c ++ writeString value := List.flatMap_cons
    rw [hw, List.append_assoc, readString_writeStringChar, ih]
    rfl

/-! ### Addresses -/

/-- A character that is written as itself in an address and spoils it. -/
def spoilsWrittenUrl (c : Char) : Bool := spoilsUrl c && writeUrlChar c == [c]

theorem readUrlBody_escape {c : Char} {u : Text} (h : Escape c u) (t : Text) :
    readUrlBody (u ++ t) = (readUrlBody t).cons c := by
  obtain ⟨v, rfl, -, h⟩ := h
  obtain ⟨he, hr⟩ := h t
  rw [List.cons_append, readUrlBody, if_neg (by decide), if_neg (by decide), if_pos ⟨rfl, he⟩, hr]

theorem writeUrlChar_cases (c : Char) :
    Escape c (writeUrlChar c) ∨
      (writeUrlChar c = [c] ∧ c ≠ ')' ∧ isSpace c = false ∧ c ≠ '\\' ∧ Lexeme.isQuote c = false) := by
  unfold writeUrlChar
  split
  next hc =>
    refine .inl ?_
    rcases hc with rfl | rfl | rfl | rfl | rfl | rfl <;> exact escape_self (by decide) (by decide)
  next hc =>
    split
    next ht =>
      rw [ht]
      exact .inl (@escape_digits ['9'] (by decide) (by decide) (by decide))
    next ht =>
      cases hb : breakEscape? c with
      | some u => exact .inl (escape_break hb)
      | none =>
        simp only [not_or] at hc
        have hn := ne_lineFeed_of_breakEscape? hb
        exact .inr ⟨rfl, hc.2.2.2.2.2, by simp [isSpace, hc, ht, hn], hc.2.2.1,
          by simp [Lexeme.isQuote, hc]⟩

theorem readUrlBody_writeUrlChar {c : Char} (h : spoilsWrittenUrl c = false) (t : Text) :
    readUrlBody (writeUrlChar c ++ t) = (readUrlBody t).cons c := by
  rcases writeUrlChar_cases c with he | ⟨hw, hp, hs, hb, -⟩
  · exact readUrlBody_escape he t
  · have hc : spoilsUrl c = false := by simpa [spoilsWrittenUrl, hw] using h
    rw [hw, List.singleton_append, readUrlBody, if_neg hp, if_neg (by simp [hs]),
      if_neg (by simp [hb]), if_neg (by simp [hc])]

theorem readUrlBody_writeUrl {value : Text} (h : ∀ c ∈ value, spoilsWrittenUrl c = false) (t : Text) :
    readUrlBody (writeUrl value ++ ')' :: t) = .complete value t := by
  induction value with
  | nil => rw [writeUrl, List.flatMap_nil, List.nil_append, readUrlBody, if_pos rfl]
  | cons c value ih =>
    rw [List.forall_mem_cons] at h
    have hw : writeUrl (c :: value) = writeUrlChar c ++ writeUrl value := List.flatMap_cons
    rw [hw, List.append_assoc, readUrlBody_writeUrlChar h.1, ih h.2]
    rfl

/-- An address that is written starts with neither a blank nor a quote. -/
theorem head_writeUrl (value t : Text) : ∃ c u, writeUrl value ++ ')' :: t = c :: u ∧
    isSpace c = false ∧ Lexeme.isQuote c = false := by
  cases value with
  | nil => exact ⟨')', t, rfl, rfl, rfl⟩
  | cons c value =>
    have hw : writeUrl (c :: value) = writeUrlChar c ++ writeUrl value := List.flatMap_cons
    rw [hw, List.append_assoc]
    rcases writeUrlChar_cases c with ⟨v, he, -⟩ | ⟨he, -, hs, -, hq⟩
    · exact ⟨'\\', _, by rw [he]; rfl, rfl, rfl⟩
    · exact ⟨c, _, by rw [he]; rfl, hs, hq⟩

theorem isBareUrl_writeUrl (value t : Text) :
    Lexeme.isBareUrl (writeUrl value ++ ')' :: t) = true := by
  obtain ⟨c, u, he, hs, hq⟩ := head_writeUrl value t
  rw [he, Lexeme.isBareUrl, List.dropWhile_cons_of_neg (by simp [hs])]
  simp [hq]

theorem readUrl_writeUrl {value : Text} (h : ∀ c ∈ value, spoilsWrittenUrl c = false) (t : Text) :
    readUrl (writeUrl value ++ ')' :: t) = .complete value t := by
  obtain ⟨c, u, he, hs, -⟩ := head_writeUrl value t
  rw [readUrl, he, List.dropWhile_cons_of_neg (by simp [hs]), ← he]
  exact readUrlBody_writeUrl h t

end CustomProperties.Syntax
