import CustomProperties.Json.Basic
import CustomProperties.Syntax.Numeral
import CustomProperties.Text.Digit

/-! # Reading JSON

The strict grammar, and besides it the names of the numbers that are not finite. A number is an
integer unless it has a fraction or an exponent. Of members with one key the last one counts. What
comes first in the text ends the reading: where the grammar is broken, an integer of too many
digits, or a bracket inside too many others.
-/

namespace CustomProperties.Json

open Syntax (isHexDigit ofHexDigits)

/-- Why a text is not read. -/
inductive Fault
  | notJson
  | longNumber (number : Text.LongNumber)
  | tooDeep
  deriving DecidableEq, Repr

/-- What the grammar may have no place for. -/
def orNotJson {α : Type} : Option α → Except Fault α
  | none => .error .notJson
  | some a => .ok a

def isSpace (c : Char) : Bool := c == ' ' || c == '\t' || c == '\n' || c == '\r'

def skipSpace (t : Text) : Text := t.dropWhile isSpace

/-- Four hexadecimal digits. -/
def readUnit? : Text → Option (Nat × Text)
  | a :: b :: c :: d :: t =>
    if [a, b, c, d].all isHexDigit then some (ofHexDigits [a, b, c, d], t) else none
  | _ => none

def isHighSurrogate (n : Nat) : Bool := 0xD800 ≤ n && n < 0xDC00

def isLowSurrogate (n : Nat) : Bool := 0xDC00 ≤ n && n < 0xE000

/-- The character of an escape by code units. Two surrogates make one character, and a lone one
stands for the replacement character. -/
def readUnits? (t : Text) : Option (Char × Text) :=
  match readUnit? t with
  | none => none
  | some (high, rest) =>
    if isHighSurrogate high then
      match rest with
      | '\\' :: 'u' :: next =>
        match readUnit? next with
        | none => none
        | some (low, others) =>
          if isLowSurrogate low then
            some (Char.ofNat (0x10000 + (high - 0xD800) * 0x400 + (low - 0xDC00)), others)
          else some ('\uFFFD', rest)
      | _ => some ('\uFFFD', rest)
    else if isLowSurrogate high then some ('\uFFFD', rest)
    else some (Char.ofNat high, rest)

/-- The character of an escape, read after the backslash. -/
def readEscape? : Text → Option (Char × Text)
  | '"' :: t => some ('"', t)
  | '\\' :: t => some ('\\', t)
  | '/' :: t => some ('/', t)
  | 'b' :: t => some ('\x08', t)
  | 'f' :: t => some ('\x0C', t)
  | 'n' :: t => some ('\n', t)
  | 'r' :: t => some ('\r', t)
  | 't' :: t => some ('\t', t)
  | 'u' :: t => readUnits? t
  | _ => none

theorem length_readUnit? {t rest : Text} {n : Nat} (h : readUnit? t = some (n, rest)) :
    rest.length ≤ t.length := by
  unfold readUnit? at h
  split at h
  · split at h
    · cases h; simp; omega
    · contradiction
  · contradiction

theorem length_readUnits? {t rest : Text} {c : Char} (h : readUnits? t = some (c, rest)) :
    rest.length ≤ t.length := by
  unfold readUnits? at h
  split at h
  · contradiction
  · next high r hu =>
    have hr := length_readUnit? hu
    split at h
    · split at h
      · next next =>
        split at h
        · contradiction
        · next low others hl =>
          have ho := length_readUnit? hl
          split at h
          · rw [← (Prod.mk.inj (Option.some.inj h)).2]
            simp at hr
            omega
          · rw [← (Prod.mk.inj (Option.some.inj h)).2]
            exact hr
      · rw [← (Prod.mk.inj (Option.some.inj h)).2]
        exact hr
    · split at h <;> (rw [← (Prod.mk.inj (Option.some.inj h)).2]; exact hr)

theorem length_readEscape? {t rest : Text} {c : Char} (h : readEscape? t = some (c, rest)) :
    rest.length ≤ t.length := by
  unfold readEscape? at h
  split at h
  case h_9 => exact Nat.le_succ_of_le (length_readUnits? h)
  case h_10 => contradiction
  all_goals
    cases h
    simp

/-- The rest of a string whose characters so far are `done`, the last one first. -/
def readStringOnto (done : Text) : Text → Option (Text × Text)
  | [] => none
  | c :: t =>
    if c = '"' then some (done.reverse, t)
    else if c = '\\' then
      match _ : readEscape? t with
      | none => none
      | some (d, rest) => readStringOnto (d :: done) rest
    else if c.toNat < 0x20 then none
    else readStringOnto (c :: done) t
termination_by t => t.length
decreasing_by
  · exact Nat.lt_succ_of_le (length_readEscape? ‹_›)
  · simp

/-- A string after its opening quote. -/
def readString? (t : Text) : Option (Text × Text) := readStringOnto [] t

/-- The value of a row of decimal digits. -/
def natOf (digits : Text) : Nat := digits.foldl (fun n d => 10 * n + (d.toNat - '0'.toNat)) 0

/-- The whole part of a number, which has no leading zero. -/
def readWhole? : Text → Option (Text × Text)
  | [] => none
  | c :: t =>
    if c = '0' then some (['0'], t)
    else if c.isDigit then some (c :: t.takeWhile Char.isDigit, t.dropWhile Char.isDigit)
    else none

/-- A fraction after its point, or nothing. -/
def readFraction : Text → Text × Text
  | '.' :: t =>
    if t.takeWhile Char.isDigit = [] then ([], '.' :: t)
    else (t.takeWhile Char.isDigit, t.dropWhile Char.isDigit)
  | t => ([], t)

/-- The number that an exponent with its mark denotes. -/
def exponentOf : Text → Int
  | _ :: '-' :: digits => -(natOf digits : Int)
  | _ :: '+' :: digits => natOf digits
  | _ :: digits => natOf digits
  | [] => 0

def numberOf (negative : Bool) (whole fraction exponent : Text) : Except Text.LongNumber Json :=
  if fraction.isEmpty && exponent.isEmpty then
    (Text.readNat whole).map fun n => .int (if negative then -(n : Int) else n)
  else
    .ok (.float (.ofDecimal negative (natOf (whole ++ fraction))
      (exponentOf exponent - fraction.length)))

def readNumber (t : Text) : Except Fault (Json × Text) :=
  let negative := t.head? == some '-'
  let unsigned := if negative then t.drop 1 else t
  (orNotJson (readWhole? unsigned)).bind fun (whole, rest) =>
    let (fraction, rest) := readFraction rest
    let (exponent, rest) := Syntax.readExponent rest
    ((numberOf negative whole fraction exponent).mapError .longNumber).map (·, rest)

/-- The values that are written as names. -/
def named : List (Text × Json) :=
  [("null", .null), ("true", .bool true), ("false", .bool false), ("NaN", .float .nan),
    ("Infinity", .float (.infinite false)), ("-Infinity", .float (.infinite true))]

def readNamed? (t : Text) : Option (Json × Text) :=
  named.findSome? fun (name, v) => (Text.dropPrefix? name t).map (v, ·)

mutual

/-- A value, and the text after it. Brackets may nest in it to the given depth. -/
def readValue : (fuel depth : Nat) → Text → Except Fault (Json × Text)
  | 0, _, _ => .error .notJson
  | fuel + 1, depth, t =>
    match t, depth with
    | '"' :: t, _ => (orNotJson (readString? t)).map fun (s, rest) => (.string s, rest)
    | '[' :: _, 0 => .error .tooDeep
    | '[' :: t, depth + 1 =>
      match skipSpace t with
      | ']' :: rest => .ok (.array [], rest)
      | t => (readItems fuel depth t).map fun (items, rest) => (.array items, rest)
    | '\x7b' :: _, 0 => .error .tooDeep
    | '\x7b' :: t, depth + 1 =>
      match skipSpace t with
      | '\x7d' :: rest => .ok (.object [], rest)
      | t => (readMembers fuel depth t).map fun (ms, rest) => (.object (Entries.ofPairs ms), rest)
    | t, _ =>
      match readNamed? t with
      | some found => .ok found
      | none => readNumber t

/-- Values with commas between them, and the bracket after the last one. -/
def readItems : (fuel depth : Nat) → Text → Except Fault (List Json × Text)
  | 0, _, _ => .error .notJson
  | fuel + 1, depth, t =>
    (readValue fuel depth t).bind fun (v, rest) =>
      match skipSpace rest with
      | ']' :: rest => .ok ([v], rest)
      | ',' :: rest =>
        (readItems fuel depth (skipSpace rest)).map fun (vs, rest) => (v :: vs, rest)
      | _ => .error .notJson

/-- Members with commas between them, and the bracket after the last one. -/
def readMembers : (fuel depth : Nat) → Text → Except Fault (List (Text × Json) × Text)
  | 0, _, _ => .error .notJson
  | fuel + 1, depth, t =>
    (readMember fuel depth t).bind fun (m, rest) =>
      match skipSpace rest with
      | '\x7d' :: rest => .ok ([m], rest)
      | ',' :: rest =>
        (readMembers fuel depth (skipSpace rest)).map fun (ms, rest) => (m :: ms, rest)
      | _ => .error .notJson

def readMember : (fuel depth : Nat) → Text → Except Fault ((Text × Json) × Text)
  | 0, _, _ => .error .notJson
  | fuel + 1, depth, t =>
    match t with
    | '"' :: t =>
      (orNotJson (readString? t)).bind fun (key, rest) =>
        match skipSpace rest with
        | ':' :: rest =>
          (readValue fuel depth (skipSpace rest)).map fun (v, rest) => ((key, v), rest)
        | _ => .error .notJson
    | _ => .error .notJson

end

/-- The value that a whole text denotes, in which brackets nest to the given depth at most. -/
def read (depth : Nat) (t : Text) : Except Fault Json :=
  (readValue (2 * t.length + 2) depth (skipSpace t)).bind fun (v, rest) =>
    if skipSpace rest = [] then .ok v else .error .notJson

end CustomProperties.Json
