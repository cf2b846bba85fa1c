import CustomProperties.Syntax.Char

/-! # Names

A name is read with its escapes resolved and written with as many as it takes to read it back.
-/

namespace CustomProperties.Syntax

/-- The character with a code point, or the replacement character if there is none. -/
def charOfCode (n : Nat) : Char := if n ≠ 0 ∧ n.isValidChar then Char.ofNat n else '\uFFFD'

/-- One blank may end an escape by code point. -/
def dropSpace : Text → Text
  | [] => []
  | c :: t => if isSpace c then t else c :: t

/-- The character that an escape denotes, read after the backslash. -/
def readEscape (t : Text) : Char × Text :=
  match (t.take 6).takeWhile isHexDigit, t with
  | [], [] => ('\uFFFD', [])
  | [], c :: t => (c, t)
  | digits, t => (charOfCode (ofHexDigits digits), dropSpace (t.drop digits.length))

theorem length_dropSpace (t : Text) : (dropSpace t).length ≤ t.length := by
  cases t with
  | nil => simp [dropSpace]
  | cons c t => rw [dropSpace]; split <;> simp

theorem length_readEscape (t : Text) : (readEscape t).2.length ≤ t.length := by
  unfold readEscape
  split
  · simp
  · simp
  · next digits t _ => exact Nat.le_trans (length_dropSpace _) (by simp)

/-- The longest name that a text starts with, and the rest. -/
def readName : Text → Text × Text
  | [] => ([], [])
  | c :: t =>
    if isNameChar c then
      let (name, rest) := readName t
      (c :: name, rest)
    else if c = '\\' ∧ escapes t then
      let (name, rest) := readName (readEscape t).2
      ((readEscape t).1 :: name, rest)
    else ([], c :: t)
termination_by t => t.length
decreasing_by
  · simp
  · exact Nat.lt_succ_of_le (length_readEscape t)

theorem length_readName (t : Text) : (readName t).2.length ≤ t.length := by
  fun_induction readName t with
  | case1 => simp
  | case2 c t _ name rest h ih => simp_all; omega
  | case3 c t _ _ name rest h ih =>
    have := length_readEscape t
    simp_all
    omega
  | case4 => simp

/-- The escape of a line break by its code point. -/
def breakEscape? (c : Char) : Option Text :=
  if c = '\n' then some "\\A " else if c = '\r' then some "\\D "
  else if c = '\x0C' then some "\\C " else none

def writeNameChar (c : Char) : Text :=
  if isNameChar c then [c] else (breakEscape? c).getD ['\\', c]

def writeName (name : Text) : Text := name.flatMap writeNameChar

/-- The first character of an identifier, or the one after its hyphen. -/
def writeNameStart (c : Char) : Text :=
  if isNameStart c then [c]
  else if c.isDigit then '\\' :: hexDigits c.toNat ++ [' ']
  else (breakEscape? c).getD ['\\', c]

def writeIdent : Text → Text
  | ['-'] => "\\-"
  | '-' :: '-' :: rest => '-' :: '-' :: writeName rest
  | '-' :: c :: rest => '-' :: writeNameStart c ++ writeName rest
  | c :: rest => writeNameStart c ++ writeName rest
  | [] => []

end CustomProperties.Syntax
