import CustomProperties.Text.Printable

/-! # Quoted texts

A text is shown between single quotes, or between double quotes if it holds single ones only.
The quote, the backslash and what is not printable are escaped.
-/

namespace CustomProperties.Text

/-- Lower-case hexadecimal digits, at least `width` of them. -/
def hexPadded (width n : Nat) : Text :=
  let digits := Nat.toDigits 16 n
  List.replicate (width - digits.length) '0' ++ digits

def quoteChar (mark c : Char) : Text :=
  if c = mark ∨ c = '\\' then ['\\', c]
  else if c = '\t' then "\\t"
  else if c = '\n' then "\\n"
  else if c = '\r' then "\\r"
  else if isPrintable c then [c]
  else if c.toNat < 0x100 then "\\x" ++ hexPadded 2 c.toNat
  else if c.toNat < 0x10000 then "\\u" ++ hexPadded 4 c.toNat
  else "\\U" ++ hexPadded 8 c.toNat

def quoteMark (t : Text) : Char := if t.contains '\'' && !t.contains '"' then '"' else '\''

def quoted (t : Text) : Text := [quoteMark t] ++ t.flatMap (quoteChar (quoteMark t)) ++ [quoteMark t]

end CustomProperties.Text
