import CustomProperties.Text.Word

/-! # Nested calc

A `calc(` inside the group of another one is a plain group: only its name is removed. A vendor
may precede the name, and letter case does not matter.
-/

namespace CustomProperties.Calc

/-- The letters of a vendor name, and the four characters that only fold to such letters. -/
def isVendorLetter (c : Char) : Bool :=
  c.isAlpha || c == '\u0130' || c == '\u0131' || c == '\u017F' || c == '\u212A'

/-- Whether a function name may start after `previous`. -/
def startsAfter (previous : Option Char) : Bool :=
  match previous with
  | none => true
  | some c => !(Text.isWord c || c == '-')

/-- The text after `calc(`. -/
def bare? : Text → Option Text
  | a :: b :: c :: d :: '(' :: t =>
    if Text.lowerAscii [a, b, c, d] = "calc" then some t else none
  | _ => none

/-- The text after the vendor part `-name-` of a function name. -/
def vendor? : Text → Option Text
  | '-' :: t =>
    match t.dropWhile isVendorLetter with
    | '-' :: rest => if (t.takeWhile isVendorLetter).isEmpty then none else some rest
    | _ => none
  | _ => none

/-- The text after a calc name and its parenthesis. -/
def after? (t : Text) : Option Text :=
  match vendor? t with
  | some rest => bare? rest
  | none => bare? t

/-- The text after the calc name and parenthesis that start here, with `previous` before them. -/
def token? (previous : Option Char) (t : Text) : Option Text :=
  if startsAfter previous then after? t else none

theorem length_bare? {t rest : Text} (h : bare? t = some rest) : rest.length < t.length := by
  unfold bare? at h
  split at h
  · split at h
    · cases h; simp; omega
    · contradiction
  · contradiction

theorem length_vendor? {t rest : Text} (h : vendor? t = some rest) : rest.length < t.length := by
  unfold vendor? at h
  split at h
  · next t =>
    split at h
    · next r hd =>
      split at h
      · contradiction
      · cases h
        have := (List.dropWhile_sublist isVendorLetter (l := t)).length_le
        rw [hd] at this
        simp at this ⊢
        omega
    · contradiction
  · contradiction

theorem length_after? {t rest : Text} (h : after? t = some rest) : rest.length < t.length := by
  unfold after? at h
  split at h
  · next hv => exact Nat.lt_trans (length_bare? h) (length_vendor? hv)
  · exact length_bare? h

theorem length_token? {previous : Option Char} {t rest : Text} (h : token? previous t = some rest) :
    rest.length < t.length := by
  unfold token? at h
  split at h
  · exact length_after? h
  · contradiction

/-- Flatten a text that follows `previous` inside `depth` open parentheses of a calc group, or
outside of any when `depth` is zero. -/
def flattenFrom (previous : Option Char) (depth : Nat) (t : Text) : Text :=
  match _ : token? previous t with
  | some rest =>
    (if depth = 0 then t.take (t.length - rest.length) else ['(']) ++
      flattenFrom (some '(') (depth + 1) rest
  | none =>
    match t with
    | [] => []
    | c :: t =>
      let depth := if depth = 0 then 0 else if c = '(' then depth + 1
        else if c = ')' then depth - 1 else depth
      c :: flattenFrom (some c) depth t
termination_by t.length
decreasing_by
  · exact length_token? ‹_›
  · simp

/-- Every calc group inside another one becomes a plain group. -/
def flatten (t : Text) : Text := flattenFrom none 0 t

end CustomProperties.Calc
