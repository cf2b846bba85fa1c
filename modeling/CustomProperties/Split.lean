import CustomProperties.Text.Basic

/-! # Splitting at the top level

A separator counts only outside quotes, parentheses and square brackets. A closing bracket that
nothing opened is ignored, and a quote that is not closed runs to the end of the text.
-/

namespace CustomProperties.Split

/-- Where a left-to-right scan stands: the quote it is in, and how many brackets are open. -/
structure Position where
  quote : Option Char
  depth : Nat
  deriving DecidableEq, Repr

def start : Position := ⟨none, 0⟩

def isQuote (c : Char) : Bool := c == '"' || c == '\''

def isOpening (c : Char) : Bool := c == '(' || c == '['

def isClosing (c : Char) : Bool := c == ')' || c == ']'

def Position.step (p : Position) (c : Char) : Position :=
  match p.quote with
  | some q => if c = q then ⟨none, p.depth⟩ else p
  | none =>
    if isQuote c then ⟨some c, p.depth⟩
    else if isOpening c then ⟨none, p.depth + 1⟩
    else if isClosing c then ⟨none, p.depth - 1⟩
    else p

def Position.isTop (p : Position) : Bool := p.quote.isNone && p.depth == 0

/-- Quotes and brackets are never separators. -/
def cutsAt (separator : Text) (p : Position) (c : Char) : Bool :=
  p.isTop && !(isQuote c || isOpening c || isClosing c) && [c] == separator

/-- Cut a text at its separators, from the position `p` on and at most `limit` times. -/
def splitFrom (separator : Text) : Position → (limit : Option Nat) → Text → List Text
  | _, _, [] => [[]]
  | p, limit, c :: t =>
    if cutsAt separator p c && limit != some 0 then
      [] :: splitFrom separator p (limit.map (· - 1)) t
    else (splitFrom separator (p.step c) limit t).modifyHead (c :: ·)

def split (separator : Text) (limit : Option Nat) (t : Text) : List Text :=
  splitFrom separator start limit t

/-- A negative number of cuts stands for no limit. -/
def limitOf (n : Int) : Option Nat := if n < 0 then none else some n.toNat

/-- The parts of a list written with commas, stripped, without the empty ones. -/
def commaList (t : Text) : List Text :=
  ((split [','] none t).map Text.strip).filter (!·.isEmpty)

theorem splitFrom_ne_nil (separator : Text) (p : Position) (limit : Option Nat) (t : Text) :
    splitFrom separator p limit t ≠ [] := by
  cases t with
  | nil => simp [splitFrom]
  | cons c t =>
    rw [splitFrom]
    split
    · simp
    · simpa using splitFrom_ne_nil separator (p.step c) limit t

theorem length_le_of_mem_splitFrom {separator : Text} {p : Position} {limit : Option Nat}
    {t part : Text} (h : part ∈ splitFrom separator p limit t) : part.length ≤ t.length := by
  induction t generalizing p limit part with
  | nil => simp_all [splitFrom]
  | cons c t ih =>
    rw [splitFrom] at h
    split at h
    · rcases List.mem_cons.mp h with rfl | h
      · simp
      · exact Nat.le_succ_of_le (ih h)
    · cases hs : splitFrom separator (p.step c) limit t with
      | nil => exact absurd hs (splitFrom_ne_nil _ _ _ _)
      | cons first others =>
        rw [hs, List.modifyHead_cons] at h
        rcases List.mem_cons.mp h with rfl | h
        · exact Nat.succ_le_succ (ih (hs ▸ List.mem_cons_self))
        · exact Nat.le_succ_of_le (ih (hs ▸ List.mem_cons_of_mem _ h))

end CustomProperties.Split
