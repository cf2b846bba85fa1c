import CustomProperties.Syntax.Name

/-! # Quoted strings and addresses

A string ends at its quote or at the end of the text, and a bare line break spoils it. An address
in `url(` may stand without quotes; what cannot belong to one spoils it up to the next
parenthesis.
-/

namespace CustomProperties.Syntax

/-- What was read of a string or an address. -/
inductive Reading
  | complete (value : Text) (rest : Text)
  | unfinished (value : Text)
  | bad (rest : Text)
  deriving DecidableEq, Repr

namespace Reading

def cons (c : Char) : Reading → Reading
  | complete value rest => complete (c :: value) rest
  | unfinished value => unfinished (c :: value)
  | bad rest => bad rest

def rest : Reading → Text
  | complete _ rest => rest
  | unfinished _ => []
  | bad rest => rest

@[simp] theorem rest_cons (c : Char) (r : Reading) : (r.cons c).rest = r.rest := by
  cases r <;> rfl

end Reading

/-- Read a string after its opening quote. -/
def readString (quote : Char) : Text → Reading
  | [] => .unfinished []
  | c :: t =>
    if c = quote then .complete [] t
    else if c = '\\' then
      match t with
      | [] => .unfinished []
      | '\n' :: t => readString quote t
      | d :: t => (readString quote (readEscape (d :: t)).2).cons (readEscape (d :: t)).1
    else if c = '\n' then .bad (c :: t)
    else (readString quote t).cons c
termination_by t => t.length
decreasing_by
  · simp only [List.length_cons]; omega
  · exact Nat.lt_succ_of_le (length_readEscape _)
  · simp

theorem length_readString (quote : Char) (t : Text) :
    (readString quote t).rest.length ≤ t.length := by
  fun_induction readString quote t with
  | case1 => simp [Reading.rest]
  | case2 => simp [Reading.rest]
  | case3 => simp [Reading.rest]
  | case4 => simp; omega
  | case5 d t _ _ ih =>
    have := length_readEscape (d :: t)
    simp at this ⊢
    omega
  | case6 => simp [Reading.rest]
  | case7 => simp; omega

/-- The text after a spoilt address: past the next parenthesis that is not escaped. -/
def skipBadUrl : Text → Text
  | [] => []
  | '\\' :: ')' :: t => skipBadUrl t
  | c :: t => if c = ')' then t else skipBadUrl t

theorem length_skipBadUrl (t : Text) : (skipBadUrl t).length ≤ t.length := by
  fun_induction skipBadUrl t <;> simp_all <;> omega

/-- Characters that cannot stand in an address without quotes. -/
def spoilsUrl (c : Char) : Bool :=
  c == '"' || c == '\'' || c == '(' || c.toNat ≤ 8 || c == '\x0B' ||
    (0x0E ≤ c.toNat && c.toNat ≤ 0x1F) || c == '\x7F'

/-- After the blank that ends an address only its parenthesis may follow. -/
def closeUrl (t : Text) : Reading :=
  match t.dropWhile isSpace with
  | [] => .unfinished []
  | c :: rest => if c = ')' then .complete [] rest else .bad (skipBadUrl (c :: rest))

def readUrlBody : Text → Reading
  | [] => .unfinished []
  | c :: t =>
    if c = ')' then .complete [] t
    else if isSpace c then closeUrl t
    else if c = '\\' ∧ escapes t then (readUrlBody (readEscape t).2).cons (readEscape t).1
    else if spoilsUrl c then .bad (skipBadUrl t)
    else (readUrlBody t).cons c
termination_by t => t.length
decreasing_by
  · exact Nat.lt_succ_of_le (length_readEscape t)
  · simp

theorem length_closeUrl (t : Text) : (closeUrl t).rest.length ≤ t.length := by
  have hl := (List.dropWhile_sublist isSpace (l := t)).length_le
  unfold closeUrl
  split
  · simp [Reading.rest]
  · next c rest h =>
    rw [h] at hl
    split
    · simp [Reading.rest] at hl ⊢; omega
    · exact Nat.le_trans (length_skipBadUrl _) hl

theorem length_readUrlBody (t : Text) : (readUrlBody t).rest.length ≤ t.length := by
  fun_induction readUrlBody t with
  | case1 => simp [Reading.rest]
  | case2 => simp [Reading.rest]
  | case3 c t => exact Nat.le_succ_of_le (length_closeUrl t)
  | case4 c t _ _ _ ih =>
    have := length_readEscape t
    simp
    omega
  | case5 c t => exact Nat.le_succ_of_le (length_skipBadUrl t)
  | case6 => simp; omega

/-- Read an address after `url(`, where no quote follows. -/
def readUrl (t : Text) : Reading := readUrlBody (t.dropWhile isSpace)

theorem length_readUrl (t : Text) : (readUrl t).rest.length ≤ t.length :=
  Nat.le_trans (length_readUrlBody _) (List.dropWhile_sublist _).length_le

def writeStringChar (c : Char) : Text :=
  if c = '"' ∨ c = '\\' then ['\\', c] else (breakEscape? c).getD [c]

def writeString (value : Text) : Text := value.flatMap writeStringChar

def writeUrlChar (c : Char) : Text :=
  if c = '"' ∨ c = '\'' ∨ c = '\\' ∨ c = ' ' ∨ c = '(' ∨ c = ')' then ['\\', c]
  else if c = '\t' then "\\9 " else (breakEscape? c).getD [c]

def writeUrl (value : Text) : Text := value.flatMap writeUrlChar

end CustomProperties.Syntax
