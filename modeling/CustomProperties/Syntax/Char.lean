import CustomProperties.Text.Basic

/-! # Characters of the style sheet syntax

The grammar reads a text in which every line break is a line feed and no character is NUL.
-/

namespace CustomProperties.Syntax

def standardizeOnto (done : Text) : Text → Text
  | [] => done.reverse
  | '\r' :: '\n' :: t => standardizeOnto ('\n' :: done) t
  | c :: t =>
    let c := if c = '\r' ∨ c = '\x0C' then '\n' else if c = '\x00' then '\uFFFD' else c
    standardizeOnto (c :: done) t

/-- Every line break becomes a line feed, and NUL the replacement character. -/
def standardize (t : Text) : Text := standardizeOnto [] t

def isSpace (c : Char) : Bool := c == ' ' || c == '\n' || c == '\t'

def isHexDigit (c : Char) : Bool :=
  c.isDigit || ('a' ≤ c && c ≤ 'f') || ('A' ≤ c && c ≤ 'F')

def hexValue (c : Char) : Nat :=
  if c.isDigit then c.toNat - '0'.toNat
  else if 'a' ≤ c then c.toNat - 'a'.toNat + 10 else c.toNat - 'A'.toNat + 10

def ofHexDigits (ds : Text) : Nat := ds.foldl (fun n d => 16 * n + hexValue d) 0

/-- Hexadecimal digits in upper case. -/
def hexDigits (n : Nat) : Text := (Nat.toDigits 16 n).map Char.toUpper

def isAscii (c : Char) : Bool := c.toNat < 0x80

def isNameStart (c : Char) : Bool := c.isAlpha || c == '_' || !isAscii c

def isNameChar (c : Char) : Bool := isNameStart c || c.isDigit || c == '-'

/-- A backslash escapes unless a line break follows it; it escapes at the end of the text too. -/
def escapes : Text → Bool
  | '\n' :: _ => false
  | _ => true

/-- Whether an identifier starts here. -/
def startsIdent : Text → Bool
  | '-' :: '\\' :: t => escapes t
  | '-' :: c :: _ => isNameStart c || c == '-'
  | '\\' :: t => escapes t
  | c :: _ => isNameStart c
  | [] => false

end CustomProperties.Syntax
