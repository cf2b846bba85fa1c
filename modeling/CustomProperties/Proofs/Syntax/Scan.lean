import CustomProperties.Syntax.Lexer

/-! # Lexemes of a text without escapes

If no backslash stands in a text, names, strings and addresses stand for themselves. The relation
`Scans` says for each kind of lexeme what text it is read from, and the lexer keeps to it.
-/

namespace CustomProperties.Syntax

def Opener.text : Opener → Text
  | bracket b => [b.opening]
  | function name => name ++ ['(']

theorem Bracket.opening_of_ofOpening? {c : Char} {b : Bracket} (h : ofOpening? c = some b) :
    b.opening = c := by
  have hc := List.find?_some (p := fun b : Bracket => b.opening == c) h
  exact beq_iff_eq.mp hc

theorem Bracket.closing_of_ofClosing? {c : Char} {b : Bracket} (h : ofClosing? c = some b) :
    b.closing = c := by
  have hc := List.find?_some (p := fun b : Bracket => b.closing == c) h
  exact beq_iff_eq.mp hc

theorem readName_append {t : Text} (h : '\\' ∉ t) : (readName t).1 ++ (readName t).2 = t := by
  fun_induction readName t with
  | case1 => rfl
  | case2 c t _ name rest hr ih =>
    rw [hr] at ih
    exact congrArg (List.cons c) (ih fun hm => h (List.mem_cons_of_mem c hm))
  | case3 c t _ he =>
    rw [he.1] at h
    exact absurd List.mem_cons_self h
  | case4 => rfl

theorem readRange?_suffix {t rest : Text} {r : CodeRange} (h : readRange? t = some (r, rest)) :
    rest <:+ t := by
  have he (first : Nat) (t : Text) : (readRangeEnd first t).2 <:+ t := by
    unfold readRangeEnd
    split
    · next rest =>
      split
      · exact List.suffix_refl _
      · exact (List.drop_suffix _ rest).trans (List.suffix_cons _ rest)
    · exact List.suffix_refl _
  have hr (t : Text) : (readRange t).2 <:+ t := by
    unfold readRange
    dsimp only
    split
    · exact (he _ _).trans (List.drop_suffix _ t)
    · exact List.drop_suffix _ t
  unfold readRange? at h
  split at h
  · next c d t =>
    split at h
    · have hs := hr (d :: t)
      rw [Option.some.inj h] at hs
      exact hs.trans ((List.suffix_cons _ _).trans (List.suffix_cons _ _))
    · contradiction
  · contradiction

namespace Reading

variable {quote : Char} {t : Text} {r : Reading}

/-- What is read of a string stands in the text as it is. -/
def FromString (quote : Char) (t : Text) : Reading → Prop
  | complete value rest => t = value ++ quote :: rest
  | unfinished value => t = value
  | bad rest => rest <:+ t

/-- What is read of an address stands in the text as it is, up to blanks behind it. -/
def FromUrl (t : Text) : Reading → Prop
  | complete value rest => ∃ blanks, t = value ++ (blanks ++ ')' :: rest)
  | unfinished value => ∃ blanks, t = value ++ blanks
  | bad rest => rest <:+ t

theorem FromString.cons (h : r.FromString quote t) (c : Char) :
    (r.cons c).FromString quote (c :: t) := by
  cases r with
  | complete value rest => exact congrArg (List.cons c) h
  | unfinished value => exact congrArg (List.cons c) h
  | bad rest => exact List.IsSuffix.trans h (List.suffix_cons c t)

theorem FromUrl.cons (h : r.FromUrl t) (c : Char) : (r.cons c).FromUrl (c :: t) := by
  cases r with
  | complete value rest =>
    obtain ⟨blanks, rfl⟩ := h
    exact ⟨blanks, rfl⟩
  | unfinished value =>
    obtain ⟨blanks, rfl⟩ := h
    exact ⟨blanks, rfl⟩
  | bad rest => exact List.IsSuffix.trans h (List.suffix_cons c t)

end Reading

theorem readString_from {quote : Char} {t : Text} (h : '\\' ∉ t) :
    (readString quote t).FromString quote t := by
  fun_induction readString quote t with
  | case1 => rfl
  | case2 => rfl
  | case3 => simp at h
  | case4 => simp at h
  | case5 => simp at h
  | case6 => exact List.suffix_refl _
  | case7 c t _ _ _ ih => exact (ih fun hm => h (List.mem_cons_of_mem c hm)).cons c

theorem skipBadUrl_suffix (t : Text) : skipBadUrl t <:+ t := by
  fun_induction skipBadUrl t with
  | case1 => exact List.suffix_refl _
  | case2 t ih => exact ih.trans ((List.suffix_cons _ _).trans (List.suffix_cons _ _))
  | case3 t => exact List.suffix_cons _ _
  | case4 c t _ _ ih => exact ih.trans (List.suffix_cons _ _)

theorem closeUrl_from (c : Char) (t : Text) : (closeUrl t).FromUrl (c :: t) := by
  have ht : t.takeWhile isSpace ++ t.dropWhile isSpace = t := List.takeWhile_append_dropWhile
  unfold closeUrl
  split
  · exact ⟨c :: t, rfl⟩
  · next d rest hd =>
    rw [hd] at ht
    split
    next hc =>
      rw [hc] at ht
      exact ⟨c :: t.takeWhile isSpace, congrArg (List.cons c) ht.symm⟩
    next =>
      have hs : d :: rest <:+ t := ⟨_, ht⟩
      exact ((skipBadUrl_suffix _).trans hs).trans (List.suffix_cons c t)

theorem readUrlBody_from {t : Text} (h : '\\' ∉ t) : (readUrlBody t).FromUrl t := by
  fun_induction readUrlBody t with
  | case1 => exact ⟨[], rfl⟩
  | case2 t => exact ⟨[], rfl⟩
  | case3 c t => exact closeUrl_from c t
  | case4 c t _ _ he =>
    rw [he.1] at h
    exact absurd List.mem_cons_self h
  | case5 c t => exact (skipBadUrl_suffix t).trans (List.suffix_cons c t)
  | case6 c t _ _ _ _ ih => exact (ih fun hm => h (List.mem_cons_of_mem c hm)).cons c

namespace Lexeme

inductive Scans : Text → Mark → Text → Prop

  | whitespace {t rest : Text} : Scans (t ++ rest) (.token (.whitespace t)) rest

  | comment {t rest : Text} : Scans ("/*" ++ (t ++ ("*/" ++ rest))) (.token (.comment t)) rest

  | openComment {t : Text} : Scans ("/*" ++ t) (.token (.comment t)) []

  | literal {t rest : Text} : Scans (t ++ rest) (.token (.literal t)) rest

  | ident {name rest : Text} : Scans (name ++ rest) (.token (.ident name)) rest

  | atKeyword {name rest : Text} : Scans ('@' :: (name ++ rest)) (.token (.atKeyword name)) rest

  | hash {name rest : Text} {isIdent : Bool} :
      Scans ('#' :: (name ++ rest)) (.token (.hash name isIdent)) rest

  | string {quote : Char} {value rest : Text} :
      Scans (quote :: (value ++ quote :: rest)) (.token (.string value true)) rest

  | openString {quote : Char} {value : Text} :
      Scans (quote :: value) (.token (.string value false)) []

  -- before the address stand its name, the parenthesis and blanks
  | url {before value blanks rest : Text} :
      Scans (before ++ (value ++ (blanks ++ ')' :: rest))) (.token (.url value true)) rest

  | openUrl {before value blanks : Text} :
      Scans (before ++ (value ++ blanks)) (.token (.url value false)) []

  | codeRange {t rest : Text} {range : CodeRange} :
      Scans (t ++ rest) (.token (.codeRange range)) rest

  | number {digits rest : Text} : Scans (digits ++ rest) (.token (.number digits)) rest

  | percentage {digits rest : Text} :
      Scans (digits ++ '%' :: rest) (.token (.percentage digits)) rest

  | dimension {digits unit rest : Text} :
      Scans (digits ++ (unit ++ rest)) (.token (.dimension digits unit)) rest

  | badString {t rest : Text} : Scans (t ++ rest) (.token .badString) rest

  | badUrl {t rest : Text} : Scans (t ++ rest) (.token .badUrl) rest

  | opening {opener : Opener} {rest : Text} : Scans (opener.text ++ rest) (.opening opener) rest

  | closing {bracket : Bracket} {rest : Text} :
      Scans (bracket.closing :: rest) (.closing bracket) rest

variable {quote c : Char} {t rest before : Text} {r : Reading}

theorem scans_ofString (h : r.FromString quote t) :
    Scans (quote :: t) (ofString r).1 (ofString r).2 := by
  cases r with
  | complete value rest =>
    rw [show t = value ++ quote :: rest from h]
    exact .string
  | unfinished value =>
    rw [show t = value from h]
    exact .openString
  | bad rest =>
    obtain ⟨x, rfl⟩ : rest <:+ t := h
    rw [← List.cons_append]
    exact .badString

theorem scans_ofUrl (before : Text) (h : r.FromUrl t) :
    Scans (before ++ t) (ofUrl r).1 (ofUrl r).2 := by
  cases r with
  | complete value rest =>
    obtain ⟨blanks, rfl⟩ := h
    exact .url
  | unfinished value =>
    obtain ⟨blanks, rfl⟩ := h
    exact .openUrl
  | bad rest =>
    obtain ⟨x, rfl⟩ : rest <:+ t := h
    rw [← List.append_assoc]
    exact .badUrl

theorem scans_ofIdent (h : '\\' ∉ t) : Scans t (ofIdent t).1 (ofIdent t).2 := by
  have ht := readName_append h
  unfold ofIdent
  dsimp only
  split
  next arguments hr =>
    rw [hr] at ht
    split
    next =>
      have hd : arguments.dropWhile isSpace <:+ t :=
        (List.dropWhile_suffix _).trans ⟨(readName t).1 ++ ['('], by simp [ht]⟩
      have hs := scans_ofUrl ((readName t).1 ++ '(' :: arguments.takeWhile isSpace)
        (readUrlBody_from fun hm => h (hd.mem hm))
      rwa [List.append_assoc, List.cons_append, List.takeWhile_append_dropWhile, ht] at hs
    next =>
      have hs : Scans ((Opener.function (readName t).1).text ++ arguments)
        (.opening (.function (readName t).1)) arguments := .opening
      rwa [Opener.text, List.append_assoc, List.singleton_append, ht] at hs
  next =>
    have hs : Scans ((readName t).1 ++ (readName t).2) _ _ := .ident
    rwa [ht] at hs

theorem scans_ofNumber (digits : Text) (h : '\\' ∉ rest) :
    Scans (digits ++ rest) (ofNumber digits rest).1 (ofNumber digits rest).2 := by
  unfold ofNumber
  split
  next =>
    have hs : Scans (digits ++ ((readName rest).1 ++ (readName rest).2)) _ _ := .dimension
    rwa [readName_append h] at hs
  next =>
    split
    · exact .percentage
    · exact .number

theorem scans_ofAt (h : '\\' ∉ t) : Scans ('@' :: t) (ofAt t).1 (ofAt t).2 := by
  unfold ofAt
  split
  next =>
    have hs : Scans ('@' :: ((readName t).1 ++ (readName t).2)) _ _ := .atKeyword
    rwa [readName_append h] at hs
  next => exact .literal (t := ['@'])

theorem scans_ofHash (h : '\\' ∉ t) : Scans ('#' :: t) (ofHash t).1 (ofHash t).2 := by
  unfold ofHash
  split
  next =>
    have hs : Scans ('#' :: ((readName t).1 ++ (readName t).2))
      (.token (.hash (readName t).1 (startsIdent t))) _ := .hash
    rwa [readName_append h] at hs
  next => exact .literal (t := ['#'])

theorem scans_ofComment (t : Text) : Scans ("/*" ++ t) (ofComment t).1 (ofComment t).2 := by
  unfold ofComment
  split
  next text rest hb =>
    rw [Text.breakOn_append hb, List.append_assoc]
    exact .comment
  next => exact .openComment

theorem scans_ofLiteral (c : Char) (t : Text) :
    Scans (c :: t) (ofLiteral c t).1 (ofLiteral c t).2 := by
  unfold ofLiteral
  split
  next rest =>
    split
    · exact .literal (t := [c, '='])
    · exact .literal (t := [c])
  next => exact .literal (t := [c])

theorem scans_next (h : '\\' ∉ c :: t) : Scans (c :: t) (next c t).1 (next c t).2 := by
  have ht : '\\' ∉ t := fun hm => h (List.mem_cons_of_mem c hm)
  have hp {pre rest : Text} (hd : Text.dropPrefix? pre (c :: t) = some rest) :
      c :: t = pre ++ rest := Text.dropPrefix?_eq_some.mp hd
  unfold next
  split
  next =>
    have hs : Scans ((c :: t.takeWhile isSpace) ++ t.dropWhile isSpace) _ _ := .whitespace
    rwa [List.cons_append, List.takeWhile_append_dropWhile] at hs
  split
  next range rest hr =>
    obtain ⟨x, hx⟩ := readRange?_suffix hr
    rw [← hx]
    exact .codeRange
  split
  next rest hd =>
    rw [hp hd]
    exact .literal
  split
  next => exact scans_ofIdent h
  split
  next digits rest hr =>
    obtain ⟨ha, -⟩ := readNumber?_append hr
    rw [← ha]
    exact scans_ofNumber digits fun hm => h (ha ▸ List.mem_append_right _ hm)
  split
  next hc =>
    rw [hc]
    exact scans_ofAt ht
  split
  next hc =>
    rw [hc]
    exact scans_ofHash ht
  split
  next b hb =>
    rw [← Bracket.opening_of_ofOpening? hb]
    change Scans ((Opener.bracket b).text ++ t) _ t
    exact .opening
  split
  next b hb =>
    rw [← Bracket.closing_of_ofClosing? hb]
    exact .closing
  split
  next => exact scans_ofString (readString_from ht)
  split
  next rest hd =>
    rw [hp hd]
    exact scans_ofComment rest
  split
  next rest hd =>
    rw [hp hd]
    exact .literal
  split
  next rest hd =>
    rw [hp hd]
    exact .literal
  · exact scans_ofLiteral c t

end Lexeme

end CustomProperties.Syntax
