import CustomProperties.Binary64
import CustomProperties.Entries
import CustomProperties.Text.Digit
import CustomProperties.Text.Quoted

/-! # JSON values

Integers and floating-point numbers are told apart, as is the sign of zero. Every value has a
plain text, in which a string is itself and the members of arrays and objects are quoted, unless
there is an integer in it that is too long to be written.
-/

namespace CustomProperties

inductive Json
  | null
  | bool (value : Bool)
  | int (value : Int)
  | float (value : Binary64)
  | string (text : Text)
  | array (items : List Json)
  | object (members : List (Text × Json))
  deriving Repr, Inhabited

namespace Json

def boolText (b : Bool) : Text := if b then "True" else "False"

mutual

/-- The text of a value inside another one. -/
def quotedText : Json → Text
  | null => "None"
  | bool b => boolText b
  | int n => toString n
  | float x => x.write
  | string t => t.quoted
  | array items => ['['] ++ itemsText items ++ [']']
  | object members => ['\x7b'] ++ membersText members ++ ['\x7d']

def itemsText : List Json → Text
  | [] => []
  | [v] => v.quotedText
  | v :: vs => v.quotedText ++ ", " ++ itemsText vs

def membersText : List (Text × Json) → Text
  | [] => []
  | [(key, v)] => key.quoted ++ ": " ++ v.quotedText
  | (key, v) :: ms => key.quoted ++ ": " ++ v.quotedText ++ ", " ++ membersText ms

end

def plainText : Json → Text
  | string t => t
  | v => v.quotedText

mutual

/-- Whether a value has a text: none of its integers has too many digits to be written. -/
def hasText : Json → Bool
  | int n => (Text.ofNat n.natAbs).length ≤ Text.digitLimit
  | array items => allHaveText items
  | object members => membersHaveText members
  | _ => true

def allHaveText : List Json → Bool
  | [] => true
  | v :: vs => v.hasText && allHaveText vs

def membersHaveText : List (Text × Json) → Bool
  | [] => true
  | (_, v) :: ms => v.hasText && membersHaveText ms

end

/-- The member of an object. -/
def member? (key : Text) : Json → Option Json
  | object members => members.lookup key
  | _ => none

end Json

end CustomProperties
