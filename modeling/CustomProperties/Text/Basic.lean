/-! # Texts

A text is the list of its characters, so that every scan is a recursion on it. Cutting a text
loses nothing: the parts concatenate to the whole.
-/

namespace CustomProperties

abbrev Text := List Char

instance : Coe String Text := ⟨String.toList⟩

/-- Texts that compare equal are equal. -/
instance : LawfulBEq Text := inferInstance

namespace Text

/-- What holds of every character of a text is decided along the text. -/
instance (priority := high) (p : Char → Prop) [DecidablePred p] (t : Text) :
    Decidable (∀ c ∈ t, p c) :=
  t.decidableBAll p

/-- The characters that stripping removes. -/
def isBlank (c : Char) : Bool :=
  let n := c.toNat
  (0x09 ≤ n && n ≤ 0x0D) || (0x1C ≤ n && n ≤ 0x20) || n == 0x85 || n == 0xA0 || n == 0x1680 ||
    (0x2000 ≤ n && n ≤ 0x200A) || n == 0x2028 || n == 0x2029 || n == 0x202F || n == 0x205F ||
    n == 0x3000

def stripLeft (t : Text) : Text := t.dropWhile isBlank

def stripRight (t : Text) : Text := (t.reverse.dropWhile isBlank).reverse

def strip (t : Text) : Text := stripRight (stripLeft t)

/-- The rest of a text that starts with `pre`. -/
def dropPrefix? : (pre t : Text) → Option Text
  | [], t => some t
  | _ :: _, [] => none
  | p :: pre, c :: t => if p = c then dropPrefix? pre t else none

/-- The text before and after the first occurrence of `pattern`. -/
def breakOn (pattern : Text) : Text → Option (Text × Text)
  | [] => if pattern = [] then some ([], []) else none
  | c :: t =>
    match dropPrefix? pattern (c :: t) with
    | some rest => some ([], rest)
    | none => (breakOn pattern t).map fun (before, after) => (c :: before, after)

/-- Whether `pattern` occurs somewhere. -/
def occurs (pattern : Text) : Text → Bool
  | [] => pattern.isEmpty
  | c :: t => (dropPrefix? pattern (c :: t)).isSome || occurs pattern t

/-- ASCII letters are put in lower case and all other characters are kept. -/
def lowerAscii (t : Text) : Text := t.map Char.toLower

/-- The decimal digits of a number. -/
def ofNat (n : Nat) : Text := Nat.toDigits 10 n

theorem dropPrefix?_eq_some {pre t rest : Text} :
    dropPrefix? pre t = some rest ↔ t = pre ++ rest := by
  induction pre generalizing t with
  | nil => simp [dropPrefix?, eq_comm]
  | cons p pre ih =>
    cases t with
    | nil => simp [dropPrefix?]
    | cons c t =>
      by_cases h : p = c
      · simp [dropPrefix?, h, ih]
      · simp [dropPrefix?, h, Ne.symm h]

@[simp] theorem dropPrefix?_append (pre rest : Text) : dropPrefix? pre (pre ++ rest) = some rest :=
  dropPrefix?_eq_some.mpr rfl

theorem breakOn_append {pattern t before after : Text} (h : breakOn pattern t = some (before, after)) :
    t = before ++ pattern ++ after := by
  induction t generalizing before with
  | nil =>
    by_cases hp : pattern = []
    · simp_all [breakOn]
    · simp [breakOn, hp] at h
  | cons c t ih =>
    rw [breakOn] at h
    split at h
    next rest hd =>
      simp only [Option.some.injEq, Prod.mk.injEq] at h
      obtain ⟨rfl, rfl⟩ := h
      exact dropPrefix?_eq_some.mp hd
    next =>
      obtain ⟨⟨b, a⟩, hb, he⟩ := Option.map_eq_some_iff.mp h
      simp only [Prod.mk.injEq] at he
      obtain ⟨rfl, rfl⟩ := he
      simp [ih hb]

theorem length_of_breakOn {pattern t before after : Text}
    (h : breakOn pattern t = some (before, after)) :
    t.length = before.length + pattern.length + after.length := by
  rw [breakOn_append h]; simp [Nat.add_assoc]

theorem occurs_iff {pattern t : Text} : occurs pattern t = true ↔ pattern <:+: t := by
  induction t with
  | nil => simp [occurs]
  | cons c t ih =>
    have hp : (dropPrefix? pattern (c :: t)).isSome ↔ pattern <+: c :: t := by
      rw [Option.isSome_iff_exists]
      constructor
      · rintro ⟨rest, h⟩; exact ⟨rest, (dropPrefix?_eq_some.mp h).symm⟩
      · rintro ⟨rest, h⟩; exact ⟨rest, dropPrefix?_eq_some.mpr h.symm⟩
    rw [occurs, Bool.or_eq_true, hp, ih, List.infix_cons_iff]

end Text

end CustomProperties
