import CustomProperties.Syntax.Char
import CustomProperties.Text.Digit

/-! # Numerals

A number keeps the digits it was written with. A range of code points is written with a common
stem and question marks, or with both of its ends.
-/

namespace CustomProperties.Syntax

def readSign : Text → Text × Text
  | [] => ([], [])
  | c :: t => if c = '+' ∨ c = '-' then ([c], t) else ([], c :: t)

/-- Digits with at most one point, which a digit must follow. -/
def readMantissa? (t : Text) : Option (Text × Text) :=
  let whole := t.takeWhile Char.isDigit
  let rest := t.dropWhile Char.isDigit
  let fraction := (rest.drop 1).takeWhile Char.isDigit
  if rest.head? = some '.' ∧ fraction ≠ [] then
    some (whole ++ '.' :: fraction, (rest.drop 1).dropWhile Char.isDigit)
  else if whole = [] then none
  else some (whole, rest)

/-- An exponent, or nothing where no digit follows its mark. -/
def readExponent : Text → Text × Text
  | [] => ([], [])
  | c :: t =>
    if (c = 'e' ∨ c = 'E') ∧ ((readSign t).2.takeWhile Char.isDigit) ≠ [] then
      (c :: ((readSign t).1 ++ (readSign t).2.takeWhile Char.isDigit),
        (readSign t).2.dropWhile Char.isDigit)
    else ([], c :: t)

def readNumber? (t : Text) : Option (Text × Text) :=
  (readMantissa? (readSign t).2).map fun (mantissa, rest) =>
    ((readSign t).1 ++ (mantissa ++ (readExponent rest).1), (readExponent rest).2)

/-- What keeps a numeral from being read: without a point and an exponent it is an integer, and may
have too many digits. -/
def longNumber? (numeral : Text) : Option Text.LongNumber :=
  let digits := (readSign numeral).2
  if digits.all Char.isDigit then
    match Text.readNat digits with
    | .ok _ => none
    | .error number => some number
  else none

theorem readSign_append (t : Text) : (readSign t).1 ++ (readSign t).2 = t := by
  cases t with
  | nil => rfl
  | cons c t => rw [readSign]; split <;> rfl

theorem readMantissa?_append {t mantissa rest : Text} (h : readMantissa? t = some (mantissa, rest)) :
    mantissa ++ rest = t ∧ mantissa ≠ [] := by
  unfold readMantissa? at h
  dsimp only at h
  split at h
  · next hp =>
    cases h
    refine ⟨?_, by simp⟩
    have hd : t.dropWhile Char.isDigit = '.' :: (t.dropWhile Char.isDigit).drop 1 := by
      cases hd : t.dropWhile Char.isDigit with
      | nil => simp [hd] at hp
      | cons c r => simp_all
    rw [List.append_assoc, List.cons_append, List.takeWhile_append_dropWhile, ← hd,
      List.takeWhile_append_dropWhile]
  · split at h
    · contradiction
    · next hn =>
      cases h
      exact ⟨List.takeWhile_append_dropWhile, hn⟩

theorem readExponent_append (t : Text) : (readExponent t).1 ++ (readExponent t).2 = t := by
  cases t with
  | nil => rfl
  | cons c t =>
    rw [readExponent]
    split
    · simp only [List.cons_append, List.append_assoc, List.takeWhile_append_dropWhile,
        readSign_append]
    · rfl

theorem readNumber?_append {t number rest : Text} (h : readNumber? t = some (number, rest)) :
    number ++ rest = t ∧ number ≠ [] := by
  obtain ⟨⟨mantissa, r⟩, hm, he⟩ := Option.map_eq_some_iff.mp h
  cases he
  obtain ⟨ha, hn⟩ := readMantissa?_append hm
  refine ⟨?_, by simp [hn]⟩
  rw [List.append_assoc, List.append_assoc, readExponent_append, ha, readSign_append]

theorem length_readNumber? {t number rest : Text} (h : readNumber? t = some (number, rest)) :
    rest.length < t.length := by
  obtain ⟨rfl, hn⟩ := readNumber?_append h
  have := List.length_pos_iff.mpr hn
  simp
  omega

structure CodeRange where
  first : Nat
  last : Nat
  deriving DecidableEq, Repr

/-- The second end of a range, after its hyphen. -/
def readRangeEnd (first : Nat) (t : Text) : CodeRange × Text :=
  match t with
  | '-' :: rest =>
    match (rest.take 6).takeWhile isHexDigit with
    | [] => (⟨first, first⟩, t)
    | ends => (⟨first, ofHexDigits ends⟩, rest.drop ends.length)
  | _ => (⟨first, first⟩, t)

/-- A range after its `U+`: up to six hexadecimal digits and question marks, of which a question
mark stands for any digit. -/
def readRange (t : Text) : CodeRange × Text :=
  let stem := (t.take 6).takeWhile isHexDigit
  let marks := ((t.take 6).drop stem.length).takeWhile (· == '?')
  let rest := t.drop (stem.length + marks.length)
  if marks.isEmpty then readRangeEnd (ofHexDigits stem) rest
  else
    (⟨ofHexDigits (stem ++ marks.map fun _ => '0'), ofHexDigits (stem ++ marks.map fun _ => 'F')⟩,
      rest)

def readRange? : Text → Option (CodeRange × Text)
  | c :: '+' :: d :: t =>
    if (c = 'U' ∨ c = 'u') ∧ (isHexDigit d ∨ d = '?') then some (readRange (d :: t)) else none
  | _ => none

theorem length_readRangeEnd (first : Nat) (t : Text) :
    (readRangeEnd first t).2.length ≤ t.length := by
  unfold readRangeEnd
  split
  · split <;> simp; omega
  · exact Nat.le_refl _

theorem length_readRange? {t rest : Text} {r : CodeRange} (h : readRange? t = some (r, rest)) :
    rest.length < t.length := by
  unfold readRange? at h
  split at h
  · next d t =>
    split at h
    · have hr : (readRange (d :: t)).2.length ≤ (d :: t).length := by
        unfold readRange
        dsimp only
        split
        · exact Nat.le_trans (length_readRangeEnd _ _) (by simp)
        · simp
      rw [Option.some.inj h] at hr
      simp at hr ⊢
      omega
    · contradiction
  · contradiction

end CustomProperties.Syntax
