import CustomProperties.Syntax.Token

/-! # Lexemes

A standardized text is cut into lexemes from left to right, each by the first rule that applies.
A lexeme keeps the text from its first character on, from which its line and column follow.
-/

namespace CustomProperties.Syntax

/-- What opens a block: a bracket, or the name of a function with its parenthesis. -/
inductive Opener
  | bracket (bracket : Bracket)
  | function (name : Text)
  deriving DecidableEq, Repr

/-- The bracket that closes what was opened. -/
def Opener.closer : Opener → Bracket
  | .bracket b => b
  | .function _ => .round

inductive Mark
  | token (token : Token)
  | opening (opener : Opener)
  | closing (bracket : Bracket)
  deriving DecidableEq, Repr

structure Lexeme where
  place : Text
  mark : Mark
  deriving DecidableEq, Repr

def Mark.longNumber? : Mark → Option Text.LongNumber
  | .token t => t.longNumber?
  | _ => none

namespace Lexeme

def isQuote (c : Char) : Bool := c == '"' || c == '\''

def ofString : Reading → Mark × Text
  | .complete value rest => (.token (.string value true), rest)
  | .unfinished value => (.token (.string value false), [])
  | .bad rest => (.token .badString, rest)

def ofUrl : Reading → Mark × Text
  | .complete value rest => (.token (.url value true), rest)
  | .unfinished value => (.token (.url value false), [])
  | .bad rest => (.token .badUrl, rest)

/-- Whether the text after `url(` is an address without quotes. -/
def isBareUrl (t : Text) : Bool :=
  match t.dropWhile isSpace with
  | [] => true
  | c :: _ => !isQuote c

/-- An identifier, a function or an address. -/
def ofIdent (t : Text) : Mark × Text :=
  let (name, rest) := readName t
  match rest with
  | '(' :: arguments =>
    if Text.lowerAscii name = "url" ∧ isBareUrl arguments then ofUrl (readUrl arguments)
    else (.opening (.function name), arguments)
  | _ => (.token (.ident name), rest)

def ofNumber (digits rest : Text) : Mark × Text :=
  if startsIdent rest then (.token (.dimension digits (readName rest).1), (readName rest).2)
  else
    match rest with
    | '%' :: rest => (.token (.percentage digits), rest)
    | _ => (.token (.number digits), rest)

/-- What follows an at sign. -/
def ofAt (t : Text) : Mark × Text :=
  if startsIdent t then (.token (.atKeyword (readName t).1), (readName t).2)
  else (.token (.literal ['@']), t)

/-- Whether a name starts here, which a digit may do too. -/
def startsName : Text → Bool
  | [] => false
  | c :: t => isNameChar c || (c == '\\' && escapes t)

/-- What follows a number sign. -/
def ofHash (t : Text) : Mark × Text :=
  if startsName t then (.token (.hash (readName t).1 (startsIdent t)), (readName t).2)
  else (.token (.literal ['#']), t)

/-- What follows the start of a comment. -/
def ofComment (t : Text) : Mark × Text :=
  match Text.breakOn "*/" t with
  | some (text, rest) => (.token (.comment text), rest)
  | none => (.token (.comment t), [])

/-- Characters that an equals sign joins. -/
def joinsEquals (c : Char) : Bool := c == '~' || c == '|' || c == '^' || c == '$' || c == '*'

def ofLiteral (c : Char) (t : Text) : Mark × Text :=
  match t with
  | '=' :: rest => if joinsEquals c then (.token (.literal [c, '=']), rest) else (.token (.literal [c]), t)
  | _ => (.token (.literal [c]), t)

/-- The first lexeme of a text and the rest. -/
def next (c : Char) (t : Text) : Mark × Text :=
  if isSpace c then (.token (.whitespace (c :: t.takeWhile isSpace)), t.dropWhile isSpace)
  else if let some (range, rest) := readRange? (c :: t) then (.token (.codeRange range), rest)
  else if let some rest := Text.dropPrefix? "-->" (c :: t) then (.token (.literal "-->"), rest)
  else if startsIdent (c :: t) then ofIdent (c :: t)
  else if let some (digits, rest) := readNumber? (c :: t) then ofNumber digits rest
  else if c = '@' then ofAt t
  else if c = '#' then ofHash t
  else if let some b := Bracket.ofOpening? c then (.opening (.bracket b), t)
  else if let some b := Bracket.ofClosing? c then (.closing b, t)
  else if isQuote c then ofString (readString c t)
  else if let some rest := Text.dropPrefix? "/*" (c :: t) then ofComment rest
  else if let some rest := Text.dropPrefix? "<!--" (c :: t) then (.token (.literal "<!--"), rest)
  else if let some rest := Text.dropPrefix? "||" (c :: t) then (.token (.literal "||"), rest)
  else ofLiteral c t

theorem readName_of_startsIdent {t : Text} (h : startsIdent t = true) :
    (readName t).2.length < t.length := by
  cases t with
  | nil => simp [startsIdent] at h
  | cons c t =>
    have hc : isNameChar c = true ∨ (c = '\\' ∧ escapes t = true) := by
      unfold startsIdent at h
      split at h
      · next he => cases he; exact .inl rfl
      · next he => cases he; exact .inl rfl
      · next he => cases he; exact .inr ⟨rfl, h⟩
      · next he => cases he; exact .inl (by simp [isNameChar, h])
      · contradiction
    rw [readName]
    split
    · exact Nat.lt_succ_of_le (length_readName t)
    · next hn =>
      rw [if_pos (hc.resolve_left hn)]
      exact Nat.lt_succ_of_le (Nat.le_trans (length_readName _) (length_readEscape t))

theorem length_ofIdent {t : Text} (h : startsIdent t = true) : (ofIdent t).2.length < t.length := by
  have hr := readName_of_startsIdent h
  unfold ofIdent
  dsimp only
  split
  · next arguments ha =>
    rw [ha, List.length_cons] at hr
    split
    · have hu := length_readUrl arguments
      cases hc : readUrl arguments <;> simp_all [ofUrl, Reading.rest] <;> omega
    · dsimp only; omega
  · exact hr

theorem length_ofNumber (digits rest : Text) : (ofNumber digits rest).2.length ≤ rest.length := by
  unfold ofNumber
  split
  · exact length_readName rest
  · split <;> simp

theorem length_ofAt (t : Text) : (ofAt t).2.length ≤ t.length := by
  unfold ofAt
  split
  · exact length_readName t
  · exact Nat.le_refl _

theorem length_ofHash (t : Text) : (ofHash t).2.length ≤ t.length := by
  unfold ofHash
  split
  · exact length_readName t
  · exact Nat.le_refl _

theorem length_ofString (quote : Char) (t : Text) :
    (ofString (readString quote t)).2.length ≤ t.length := by
  have h := length_readString quote t
  cases hr : readString quote t <;> simp_all [ofString, Reading.rest]

theorem length_ofComment (t : Text) : (ofComment t).2.length ≤ t.length := by
  unfold ofComment
  split
  · next h => have := Text.length_of_breakOn h; dsimp only; omega
  · simp

theorem length_ofLiteral (c : Char) (t : Text) : (ofLiteral c t).2.length ≤ t.length := by
  unfold ofLiteral
  split
  · split <;> simp
  · exact Nat.le_refl _

theorem length_dropPrefix? {pre t rest : Text} {c : Char} (hp : pre ≠ [])
    (h : Text.dropPrefix? pre (c :: t) = some rest) : rest.length ≤ t.length := by
  have hl := congrArg List.length (Text.dropPrefix?_eq_some.mp h)
  have := List.length_pos_iff.mpr hp
  simp only [List.length_cons, List.length_append] at hl
  omega

theorem length_next (c : Char) (t : Text) : (next c t).2.length ≤ t.length := by
  unfold next
  split
  · exact (List.dropWhile_sublist _).length_le
  split
  · next h => exact Nat.le_of_lt_succ (length_readRange? h)
  split
  · next h => exact length_dropPrefix? (by decide) h
  split
  · next h => exact Nat.le_of_lt_succ (length_ofIdent h)
  split
  · next h =>
    exact Nat.le_trans (length_ofNumber _ _) (Nat.le_of_lt_succ (length_readNumber? h))
  split
  · exact length_ofAt t
  split
  · exact length_ofHash t
  split
  · exact Nat.le_refl _
  split
  · exact Nat.le_refl _
  split
  · exact length_ofString c t
  split
  · next h => exact Nat.le_trans (length_ofComment _) (length_dropPrefix? (by decide) h)
  split
  · next h => exact length_dropPrefix? (by decide) h
  split
  · next h => exact length_dropPrefix? (by decide) h
  · exact length_ofLiteral c t

def readOnto (done : List Lexeme) : Text → List Lexeme
  | [] => done.reverse
  | c :: t => readOnto (⟨c :: t, (next c t).1⟩ :: done) (next c t).2
termination_by t => t.length
decreasing_by exact Nat.lt_succ_of_le (length_next c t)

/-- All lexemes of a standardized text. -/
def readAll (t : Text) : List Lexeme := readOnto [] t

theorem readOnto_append (done earlier : List Lexeme) (t : Text) :
    readOnto (done ++ earlier) t = earlier.reverse ++ readOnto done t := by
  fun_induction readOnto done t with
  | case1 => simp [readOnto]
  | case2 done c t ih => rw [readOnto]; exact ih

@[simp] theorem readAll_nil : readAll [] = [] := by rw [readAll, readOnto]; rfl

theorem readAll_cons (c : Char) (t : Text) :
    readAll (c :: t) = ⟨c :: t, (next c t).1⟩ :: readAll (next c t).2 := by
  rw [readAll, readOnto]
  exact readOnto_append [] [_] _

end Lexeme

end CustomProperties.Syntax
