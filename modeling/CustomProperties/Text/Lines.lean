import CustomProperties.Text.Basic

/-! # Lines

A text is cut into lines at every line break of any script. A break at the end of the text opens
no further line.
-/

namespace CustomProperties.Text

def isLineBreak (c : Char) : Bool :=
  let n := c.toNat
  (0x0A ≤ n && n ≤ 0x0D) || (0x1C ≤ n && n ≤ 0x1E) || n == 0x85 || n == 0x2028 || n == 0x2029

def lines : Text → List Text
  | [] => []
  | '\r' :: '\n' :: t => [] :: lines t
  | c :: t =>
    if isLineBreak c then [] :: lines t
    else
      match lines t with
      | [] => [[c]]
      | line :: others => (c :: line) :: others

end CustomProperties.Text
