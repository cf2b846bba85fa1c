import CustomProperties.Syntax.Quoted
import CustomProperties.Syntax.Numeral

/-! # Tokens

The indivisible pieces of a style sheet and how each is written. A string or an address that the
end of the text cut off is marked as not closed and is written without its end.
-/

namespace CustomProperties.Syntax

inductive Bracket
  | round
  | square
  | curly
  deriving DecidableEq, Repr

namespace Bracket

def opening : Bracket → Char
  | round => '('
  | square => '['
  | curly => '\x7b'

def closing : Bracket → Char
  | round => ')'
  | square => ']'
  | curly => '\x7d'

def all : List Bracket := [round, square, curly]

def ofOpening? (c : Char) : Option Bracket := all.find? (·.opening == c)

def ofClosing? (c : Char) : Option Bracket := all.find? (·.closing == c)

end Bracket

inductive Token
  | whitespace (text : Text)
  | comment (text : Text)
  | literal (text : Text)
  | ident (name : Text)
  | atKeyword (name : Text)
  | hash (name : Text) (isIdent : Bool)
  | string (value : Text) (closed : Bool)
  | url (value : Text) (closed : Bool)
  | codeRange (range : CodeRange)
  | number (digits : Text)
  | percentage (digits : Text)
  | dimension (digits unit : Text)
  | badString
  | badUrl
  | stray (bracket : Bracket)
  deriving DecidableEq, Repr

namespace Token

/-- A unit that would continue its number as an exponent starts with an escape. -/
def writeUnit (unit : Text) : Text :=
  match unit with
  | [] => []
  | c :: rest =>
    if (c = 'e' ∨ c = 'E') ∧ (rest.isEmpty ∨ rest.head? = some '-') then
      "\\65 " ++ writeName rest
    else writeIdent unit

def writeRange (r : CodeRange) : Text :=
  if r.first = r.last then "U+" ++ hexDigits r.first
  else "U+" ++ hexDigits r.first ++ ['-'] ++ hexDigits r.last

def write : Token → Text
  | whitespace text => text
  | comment text => "/*" ++ text ++ "*/"
  | literal text => text
  | ident name => writeIdent name
  | atKeyword name => '@' :: writeIdent name
  | hash name isIdent => '#' :: if isIdent then writeIdent name else writeName name
  | string value closed => '"' :: writeString value ++ if closed then ['"'] else []
  | url value closed => "url(" ++ writeUrl value ++ if closed then [')'] else []
  | codeRange r => writeRange r
  | number digits => digits
  | percentage digits => digits ++ ['%']
  | dimension digits unit => digits ++ writeUnit unit
  | badString => "\"[bad string]\n"
  | badUrl => "url([bad url])"
  | stray bracket => [bracket.closing]

/-- The number that keeps a token from being read. -/
def longNumber? : Token → Option Text.LongNumber
  | number digits => Syntax.longNumber? digits
  | percentage digits => Syntax.longNumber? digits
  | dimension digits _ => Syntax.longNumber? digits
  | _ => none

end Token

end CustomProperties.Syntax
