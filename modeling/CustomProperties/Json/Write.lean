import CustomProperties.Json.Basic

/-! # Writing JSON

Strings are written as they are but for the quote, the backslash and control characters. The
layout is compact or indented by two spaces; an empty array or object stays on its line.
-/

namespace CustomProperties.Json

def writeChar (c : Char) : Text :=
  if c = '"' ∨ c = '\\' then ['\\', c]
  else if c = '\x08' then "\\b"
  else if c = '\t' then "\\t"
  else if c = '\n' then "\\n"
  else if c = '\x0C' then "\\f"
  else if c = '\r' then "\\r"
  else if c.toNat < 0x20 then "\\u" ++ Text.hexPadded 4 c.toNat
  else [c]

def writeString (t : Text) : Text := ['"'] ++ t.flatMap writeChar ++ ['"']

/-- What stands before each item and what after a key's colon. -/
inductive Layout
  | compact
  | indented
  deriving DecidableEq, Repr

def Layout.breakLine (l : Layout) (depth : Nat) : Text :=
  match l with
  | compact => []
  | indented => '\n' :: List.replicate (2 * depth) ' '

def Layout.colon : Layout → Text
  | compact => ":"
  | indented => ": "

mutual

def writeAt (l : Layout) (depth : Nat) : Json → Text
  | null => "null"
  | bool b => if b then "true" else "false"
  | int n => toString n
  | float x => x.write
  | string t => writeString t
  | array [] => "[]"
  | array items => ['['] ++ writeItems l (depth + 1) items ++ l.breakLine depth ++ [']']
  | object [] => ['\x7b', '\x7d']
  | object members =>
    ['\x7b'] ++ writeMembers l (depth + 1) members ++ l.breakLine depth ++ ['\x7d']

def writeItems (l : Layout) (depth : Nat) : List Json → Text
  | [] => []
  | [v] => l.breakLine depth ++ v.writeAt l depth
  | v :: vs => l.breakLine depth ++ v.writeAt l depth ++ [','] ++ writeItems l depth vs

def writeMembers (l : Layout) (depth : Nat) : List (Text × Json) → Text
  | [] => []
  | [(key, v)] => l.breakLine depth ++ writeString key ++ l.colon ++ v.writeAt l depth
  | (key, v) :: ms =>
    l.breakLine depth ++ writeString key ++ l.colon ++ v.writeAt l depth ++ [','] ++
      writeMembers l depth ms

end

def write (l : Layout) (v : Json) : Text := v.writeAt l 0

end CustomProperties.Json
