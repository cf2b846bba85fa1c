import CustomProperties.Proofs.Syntax.Scan

/-! # Steps of the lexer

The relation `Step` says for each kind of lexeme which rule reads it and which earlier rules have
to fail for that. Inverting a step of the lexer is a case analysis on this relation, and a step on
another text is shown by its rule.
-/

namespace CustomProperties.Syntax

theorem isSpace_cases {c : Char} (h : isSpace c = true) : c = ' ' ∨ c = '\n' ∨ c = '\t' := by
  simpa [isSpace, or_assoc] using h

namespace Lexeme

theorem isQuote_cases {c : Char} (h : isQuote c = true) : c = '"' ∨ c = '\'' := by
  simpa [isQuote] using h

theorem joinsEquals_cases {c : Char} (h : joinsEquals c = true) :
    c = '~' ∨ c = '|' ∨ c = '^' ∨ c = '$' ∨ c = '*' := by
  simpa [joinsEquals, or_assoc] using h

/-- The rules for blanks, ranges and the mark `-->` do not apply. -/
structure Proper (c : Char) (t : Text) : Prop where
  space : isSpace c = false
  range : readRange? (c :: t) = none
  mark : Text.dropPrefix? ['-', '-', '>'] (c :: t) = none

/-- No rule applies but those that the first character decides. -/
structure Symbolic (c : Char) (t : Text) : Prop extends Proper c t where
  ident : startsIdent (c :: t) = false
  number : readNumber? (c :: t) = none

/-- A character that no rule but the last one can start with, whatever follows it. -/
def isSign (c : Char) : Bool :=
  !(c == '@' || c == '#' || (Bracket.ofOpening? c).isSome || (Bracket.ofClosing? c).isSome ||
    isQuote c)

structure OpensUrl (c : Char) (t name arguments : Text) : Prop extends Proper c t where
  ident : startsIdent (c :: t) = true
  read : readName (c :: t) = (name, '(' :: arguments)
  name : Text.lowerAscii name = "url"
  bare : isBareUrl arguments = true

/-- What a step of the lexer reads, and the text that it leaves. -/
inductive Step : Char → Text → Mark → Text → Prop

  | whitespace {c : Char} {t : Text} : isSpace c = true →
      Step c t (.token (.whitespace (c :: t.takeWhile isSpace))) (t.dropWhile isSpace)

  | codeRange {c : Char} {t rest : Text} {r : CodeRange} : isSpace c = false →
      readRange? (c :: t) = some (r, rest) → Step c t (.token (.codeRange r)) rest

  | closingMark {rest : Text} : Step '-' ('-' :: '>' :: rest) (.token (.literal "-->")) rest

  | ident {c : Char} {t name rest : Text} : Proper c t → startsIdent (c :: t) = true →
      readName (c :: t) = (name, rest) → rest.head? ≠ some '(' →
      Step c t (.token (.ident name)) rest

  | function {c : Char} {t name arguments : Text} : Proper c t → startsIdent (c :: t) = true →
      readName (c :: t) = (name, '(' :: arguments) →
      ¬(Text.lowerAscii name = "url" ∧ isBareUrl arguments = true) →
      Step c t (.opening (.function name)) arguments

  | url {c : Char} {t name arguments value rest : Text} : OpensUrl c t name arguments →
      readUrl arguments = .complete value rest → Step c t (.token (.url value true)) rest

  | openUrl {c : Char} {t name arguments value : Text} : OpensUrl c t name arguments →
      readUrl arguments = .unfinished value → Step c t (.token (.url value false)) []

  | badUrl {c : Char} {t name arguments rest : Text} : OpensUrl c t name arguments →
      readUrl arguments = .bad rest → Step c t (.token .badUrl) rest

  | number {c : Char} {t digits rest : Text} : Proper c t → startsIdent (c :: t) = false →
      readNumber? (c :: t) = some (digits, rest) → startsIdent rest = false →
      rest.head? ≠ some '%' → Step c t (.token (.number digits)) rest

  | percentage {c : Char} {t digits rest : Text} : Proper c t → startsIdent (c :: t) = false →
      readNumber? (c :: t) = some (digits, '%' :: rest) →
      Step c t (.token (.percentage digits)) rest

  | dimension {c : Char} {t digits rest : Text} : Proper c t → startsIdent (c :: t) = false →
      readNumber? (c :: t) = some (digits, rest) → startsIdent rest = true →
      Step c t (.token (.dimension digits (readName rest).1)) (readName rest).2

  | atKeyword {t : Text} : startsIdent t = true →
      Step '@' t (.token (.atKeyword (readName t).1)) (readName t).2

  | atSign {t : Text} : startsIdent t = false → Step '@' t (.token (.literal ['@'])) t

  | hash {t : Text} : startsName t = true →
      Step '#' t (.token (.hash (readName t).1 (startsIdent t))) (readName t).2

  | hashSign {t : Text} : startsName t = false → Step '#' t (.token (.literal ['#'])) t

  | opening {b : Bracket} {t : Text} : Step b.opening t (.opening (.bracket b)) t

  | closing {b : Bracket} {t : Text} : Step b.closing t (.closing b) t

  | string {c : Char} {t value rest : Text} : isQuote c = true →
      readString c t = .complete value rest → Step c t (.token (.string value true)) rest

  | openString {c : Char} {t value : Text} : isQuote c = true →
      readString c t = .unfinished value → Step c t (.token (.string value false)) []

  | badString {c : Char} {t rest : Text} : isQuote c = true →
      readString c t = .bad rest → Step c t (.token .badString) rest

  | comment {t u rest : Text} : Text.breakOn "*/" t = some (u, rest) →
      Step '/' ('*' :: t) (.token (.comment u)) rest

  | openComment {t : Text} : Text.breakOn "*/" t = none →
      Step '/' ('*' :: t) (.token (.comment t)) []

  | openingMark {rest : Text} : Step '<' ('!' :: '-' :: '-' :: rest) (.token (.literal "<!--")) rest

  | bars {rest : Text} : Step '|' ('|' :: rest) (.token (.literal "||")) rest

  | joined {c : Char} {rest : Text} : joinsEquals c = true →
      Step c ('=' :: rest) (.token (.literal [c, '='])) rest

  | sign {c : Char} {t : Text} : Symbolic c t → isSign c = true →
      Text.dropPrefix? "/*" (c :: t) = none → Text.dropPrefix? "<!--" (c :: t) = none →
      Text.dropPrefix? "||" (c :: t) = none → ¬(joinsEquals c = true ∧ t.head? = some '=') →
      Step c t (.token (.literal [c])) t

theorem step_ofIdent {c : Char} {t : Text} (hp : Proper c t) (hi : startsIdent (c :: t) = true) :
    Step c t (ofIdent (c :: t)).1 (ofIdent (c :: t)).2 := by
  unfold ofIdent
  dsimp only
  split
  next arguments hr =>
    have hn : readName (c :: t) = ((readName (c :: t)).1, '(' :: arguments) := Prod.ext rfl hr
    split
    next hu =>
      have ho : OpensUrl c t (readName (c :: t)).1 arguments := ⟨hp, hi, hn, hu.1, hu.2⟩
      cases hv : readUrl arguments with
      | complete value rest => exact .url ho hv
      | unfinished value => exact .openUrl ho hv
      | bad rest => exact .badUrl ho hv
    next hu => exact .function hp hi hn hu
  next hn =>
    refine .ident hp hi rfl fun hh => ?_
    obtain ⟨rest, hr⟩ := List.head?_eq_some_iff.mp hh
    exact hn rest hr

theorem step_ofNumber {c : Char} {t digits rest : Text} (hp : Proper c t)
    (hi : startsIdent (c :: t) = false) (hn : readNumber? (c :: t) = some (digits, rest)) :
    Step c t (ofNumber digits rest).1 (ofNumber digits rest).2 := by
  unfold ofNumber
  split
  next hr => exact .dimension hp hi hn hr
  next hr =>
    split
    next => exact .percentage hp hi hn
    next hh =>
      refine .number hp hi hn (eq_false_of_ne_true hr) fun hc => ?_
      obtain ⟨u, hu⟩ := List.head?_eq_some_iff.mp hc
      exact hh u hu

theorem step_ofAt (t : Text) : Step '@' t (ofAt t).1 (ofAt t).2 := by
  unfold ofAt
  split
  next h => exact .atKeyword h
  next h => exact .atSign (eq_false_of_ne_true h)

theorem step_ofHash (t : Text) : Step '#' t (ofHash t).1 (ofHash t).2 := by
  unfold ofHash
  split
  next h => exact .hash h
  next h => exact .hashSign (eq_false_of_ne_true h)

theorem step_ofString {c : Char} (hq : isQuote c = true) (t : Text) :
    Step c t (ofString (readString c t)).1 (ofString (readString c t)).2 := by
  cases hr : readString c t with
  | complete value rest => exact .string hq hr
  | unfinished value => exact .openString hq hr
  | bad rest => exact .badString hq hr

theorem step_ofComment (t : Text) : Step '/' ('*' :: t) (ofComment t).1 (ofComment t).2 := by
  unfold ofComment
  split
  next hb => exact .comment hb
  next hb => exact .openComment hb

theorem step_ofLiteral {c : Char} {t : Text} (hs : Symbolic c t) (hc : isSign c = true)
    (hcomment : Text.dropPrefix? "/*" (c :: t) = none)
    (hmark : Text.dropPrefix? "<!--" (c :: t) = none)
    (hbars : Text.dropPrefix? "||" (c :: t) = none) :
    Step c t (ofLiteral c t).1 (ofLiteral c t).2 := by
  unfold ofLiteral
  split
  next rest =>
    split
    next hj => exact .joined hj
    next hj => exact .sign hs hc hcomment hmark hbars fun h => hj h.1
  next hne =>
    refine .sign hs hc hcomment hmark hbars fun h => ?_
    obtain ⟨rest, hr⟩ := List.head?_eq_some_iff.mp h.2
    exact hne rest hr

theorem step_next (c : Char) (t : Text) : Step c t (next c t).1 (next c t).2 := by
  have hp {pre rest : Text} (hd : Text.dropPrefix? pre (c :: t) = some rest) :
      c :: t = pre ++ rest := Text.dropPrefix?_eq_some.mp hd
  unfold next
  split
  next h => exact .whitespace h
  next hspace =>
  split
  next hr => exact .codeRange (eq_false_of_ne_true hspace) hr
  next hrange =>
  split
  next hd =>
    cases hp hd
    exact .closingMark
  next hmark =>
  have hproper : Proper c t :=
    ⟨eq_false_of_ne_true hspace, Option.eq_none_iff_forall_ne_some.mpr fun _ hr => hrange _ _ hr,
      Option.eq_none_iff_forall_ne_some.mpr hmark⟩
  split
  next hi => exact step_ofIdent hproper hi
  next hident =>
  have hi := eq_false_of_ne_true hident
  split
  next hn => exact step_ofNumber hproper hi hn
  next hnumber =>
  have hsymbolic : Symbolic c t :=
    ⟨hproper, hi, Option.eq_none_iff_forall_ne_some.mpr fun _ hn => hnumber _ _ hn⟩
  split
  next hc =>
    obtain rfl := hc
    exact step_ofAt t
  next hat =>
  split
  next hc =>
    obtain rfl := hc
    exact step_ofHash t
  next hhash =>
  split
  next b hb =>
    rw [← Bracket.opening_of_ofOpening? hb]
    exact .opening
  next hopening =>
  split
  next b hb =>
    rw [← Bracket.closing_of_ofClosing? hb]
    exact .closing
  next hclosing =>
  split
  next hq => exact step_ofString hq t
  next hquote =>
  split
  next rest hd =>
    cases hp hd
    exact step_ofComment rest
  next hcomment =>
  split
  next hd =>
    cases hp hd
    exact .openingMark
  next hcdo =>
  split
  next hd =>
    cases hp hd
    exact .bars
  next hbars =>
  have hsign : isSign c = true := by
    have ho : Bracket.ofOpening? c = none := Option.eq_none_iff_forall_ne_some.mpr hopening
    have hc : Bracket.ofClosing? c = none := Option.eq_none_iff_forall_ne_some.mpr hclosing
    simp [isSign, hat, hhash, ho, hc, hquote]
  exact step_ofLiteral hsymbolic hsign (Option.eq_none_iff_forall_ne_some.mpr hcomment)
    (Option.eq_none_iff_forall_ne_some.mpr hcdo) (Option.eq_none_iff_forall_ne_some.mpr hbars)

theorem Step.of_next {c : Char} {t rest : Text} {m : Mark} (h : next c t = (m, rest)) :
    Step c t m rest := by
  have hs := step_next c t
  rwa [h] at hs

theorem Proper.next_eq {c : Char} {t : Text} (hp : Proper c t) (hi : startsIdent (c :: t) = true) :
    next c t = ofIdent (c :: t) := by
  simp [next, hp.space, hp.range, hp.mark, hi]

theorem Proper.next_of_number {c : Char} {t digits rest : Text} (hp : Proper c t)
    (hi : startsIdent (c :: t) = false) (hn : readNumber? (c :: t) = some (digits, rest)) :
    next c t = ofNumber digits rest := by
  simp [next, hp.space, hp.range, hp.mark, hi, hn]

theorem OpensUrl.next_eq {c : Char} {t name arguments : Text} (h : OpensUrl c t name arguments) :
    next c t = ofUrl (readUrl arguments) := by
  rw [h.toProper.next_eq h.ident, ofIdent, h.read]
  simp [h.name, h.bare]

def isSymbol (c : Char) : Bool :=
  !(isSpace c || isNameStart c || c.isDigit || c == '-' || c == '\\' || c == '+' || c == '.')

theorem symbolic_of_isSymbol {c : Char} (h : isSymbol c = true) (t : Text) : Symbolic c t := by
  simp only [isSymbol, Bool.not_eq_true', Bool.or_eq_false_iff, beq_eq_false_iff_ne] at h
  obtain ⟨⟨⟨⟨⟨⟨hs, hn⟩, hd⟩, hm⟩, hb⟩, hp⟩, hf⟩ := h
  refine ⟨⟨hs, ?_, ?_⟩, ?_, ?_⟩
  · unfold readRange?
    split
    next u d t he =>
      cases he
      refine if_neg fun hu => ?_
      rcases hu.1 with rfl | rfl <;> contradiction
    next => rfl
  · rw [Text.dropPrefix?, if_neg (Ne.symm hm)]
  · unfold startsIdent
    split
    next he => cases he; contradiction
    next he => cases he; contradiction
    next he => cases he; contradiction
    next he => cases he; exact hn
    next => contradiction
  · have hsign : readSign (c :: t) = ([], c :: t) := if_neg (by simp [hp, hm])
    have hmantissa : readMantissa? (c :: t) = none := by
      simp [readMantissa?, hd, hf]
    rw [readNumber?, hsign, hmantissa]
    rfl

theorem next_at (t : Text) : next '@' t = ofAt t := by
  have h := symbolic_of_isSymbol (c := '@') (by decide) t
  simp [next, h.space, h.range, h.mark, h.ident, h.number]

theorem next_hash (t : Text) : next '#' t = ofHash t := by
  have h := symbolic_of_isSymbol (c := '#') (by decide) t
  simp [next, h.space, h.range, h.mark, h.ident, h.number]

theorem next_opening (b : Bracket) (t : Text) : next b.opening t = (.opening (.bracket b), t) := by
  have hs : isSymbol b.opening = true := by cases b <;> decide
  have h := symbolic_of_isSymbol hs t
  have ho : Bracket.ofOpening? b.opening = some b := by cases b <;> rfl
  have hc : b.opening ≠ '@' ∧ b.opening ≠ '#' := by cases b <;> decide
  simp [next, h.space, h.range, h.mark, h.ident, h.number, ho, hc.1, hc.2]

theorem next_closing (b : Bracket) (t : Text) : next b.closing t = (.closing b, t) := by
  have hs : isSymbol b.closing = true := by cases b <;> decide
  have h := symbolic_of_isSymbol hs t
  have ho : Bracket.ofOpening? b.closing = none := by cases b <;> rfl
  have hb : Bracket.ofClosing? b.closing = some b := by cases b <;> rfl
  have hc : b.closing ≠ '@' ∧ b.closing ≠ '#' := by cases b <;> decide
  simp [next, h.space, h.range, h.mark, h.ident, h.number, ho, hb, hc.1, hc.2]

theorem next_quote {c : Char} (h : isQuote c = true) (t : Text) :
    next c t = ofString (readString c t) := by
  have hc := isQuote_cases h
  have hs : isSymbol c = true := by rcases hc with rfl | rfl <;> decide
  have ht := symbolic_of_isSymbol hs t
  rcases hc with rfl | rfl <;>
    simp [next, ht.space, ht.range, ht.mark, ht.ident, ht.number, Bracket.ofOpening?,
      Bracket.ofClosing?, Bracket.all, Bracket.opening, Bracket.closing, isQuote]

/-- What remains is a comment, a mark of several characters or a single one. -/
theorem Symbolic.next_eq {c : Char} {t : Text} (h : Symbolic c t) (hs : isSign c = true) :
    next c t =
      if let some rest := Text.dropPrefix? "/*" (c :: t) then ofComment rest
      else if let some rest := Text.dropPrefix? "<!--" (c :: t) then (.token (.literal "<!--"), rest)
      else if let some rest := Text.dropPrefix? "||" (c :: t) then (.token (.literal "||"), rest)
      else ofLiteral c t := by
  simp only [isSign, Bool.not_eq_true', Bool.or_eq_false_iff, beq_eq_false_iff_ne,
    Option.isSome_eq_false_iff, Option.isNone_iff_eq_none] at hs
  obtain ⟨⟨⟨⟨hat, hhash⟩, ho⟩, hc⟩, hq⟩ := hs
  have hm : Text.dropPrefix? "-->" (c :: t) = none := h.mark
  cases hcomment : Text.dropPrefix? "/*" (c :: t) <;>
    cases hcdo : Text.dropPrefix? "<!--" (c :: t) <;>
      cases hbars : Text.dropPrefix? "||" (c :: t) <;>
        simp only [next, h.space, h.range, hm, h.ident, h.number, hat, hhash, ho, hc, hq,
          hcomment, hcdo, hbars, Bool.false_eq_true, if_false]

theorem next_sign {c : Char} (h : isSymbol c = true) (hs : isSign c = true) (t : Text) :
    next c t =
      if let some rest := Text.dropPrefix? "/*" (c :: t) then ofComment rest
      else if let some rest := Text.dropPrefix? "<!--" (c :: t) then (.token (.literal "<!--"), rest)
      else if let some rest := Text.dropPrefix? "||" (c :: t) then (.token (.literal "||"), rest)
      else ofLiteral c t :=
  (symbolic_of_isSymbol h t).next_eq hs

theorem Step.eq {c : Char} {t rest : Text} {m : Mark} (h : Step c t m rest) :
    next c t = (m, rest) := by
  cases h with
  | whitespace hs => simp [next, hs]
  | codeRange hs hr => simp [next, hs, hr]
  | closingMark => rfl
  | ident hp hi hr hh =>
    rw [hp.next_eq hi, ofIdent, hr]
    dsimp only
    split
    next => contradiction
    next => rfl
  | function hp hi hr hu =>
    rw [hp.next_eq hi, ofIdent, hr]
    exact if_neg hu
  | url ho hv => rw [ho.next_eq, hv]; rfl
  | openUrl ho hv => rw [ho.next_eq, hv]; rfl
  | badUrl ho hv => rw [ho.next_eq, hv]; rfl
  | number hp hi hn hr hh =>
    rw [hp.next_of_number hi hn]
    unfold ofNumber
    rw [hr, if_neg Bool.false_ne_true]
    split
    next => contradiction
    next => rfl
  | percentage hp hi hn => rw [hp.next_of_number hi hn]; rfl
  | dimension hp hi hn hr =>
    rw [hp.next_of_number hi hn]
    exact if_pos hr
  | atKeyword h => rw [next_at, ofAt, if_pos h]
  | atSign h => rw [next_at, ofAt, h]; rfl
  | hash h => rw [next_hash, ofHash, if_pos h]
  | hashSign h => rw [next_hash, ofHash, h]; rfl
  | opening => exact next_opening _ _
  | closing => exact next_closing _ _
  | string hq hv => rw [next_quote hq, hv]; rfl
  | openString hq hv => rw [next_quote hq, hv]; rfl
  | badString hq hv => rw [next_quote hq, hv]; rfl
  | comment hb =>
    rw [next_sign (by decide) (by decide)]
    change ofComment _ = _
    rw [ofComment, hb]
  | openComment hb =>
    rw [next_sign (by decide) (by decide)]
    change ofComment _ = _
    rw [ofComment, hb]
  | openingMark => rfl
  | bars => rfl
  | joined hj =>
    rcases joinsEquals_cases hj with rfl | rfl | rfl | rfl | rfl <;>
      · rw [next_sign (by decide) (by decide)]
        rfl
  | sign hs hc hcomment hcdo hbars hj =>
    rw [hs.next_eq hc]
    simp only [hcomment, hcdo, hbars]
    unfold ofLiteral
    split
    next => exact if_neg fun h => hj ⟨h, rfl⟩
    next => rfl

theorem Step.of_closing {c : Char} {t rest : Text} {b : Bracket} (h : Step c t (.closing b) rest) :
    b.closing = c ∧ rest = t := by
  cases h
  exact ⟨rfl, rfl⟩

theorem Step.of_ident {c : Char} {t name rest : Text} (h : Step c t (.token (.ident name)) rest) :
    readName (c :: t) = (name, rest) := by
  cases h
  assumption

end Lexeme

end CustomProperties.Syntax
