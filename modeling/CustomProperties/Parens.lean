import CustomProperties.Text.Quoted

/-! # Parenthesised groups

Only `(` and `)` count: quotes and escapes do not hide them. A group that is never closed extends
to the end of the text.
-/

namespace CustomProperties.Parens

/-- What follows an opening parenthesis: the body of its group and the text after the group. -/
structure Group where
  body : Text
  closed : Bool
  rest : Text
  deriving DecidableEq, Repr

def Group.cons (c : Char) (g : Group) : Group := { g with body := c :: g.body }

/-- The group's own text, less its opening parenthesis. -/
def Group.tail (g : Group) : Text := g.body ++ if g.closed then [')'] else []

/-- Read the rest of a group inside which `depth` further groups are open. -/
def close : (depth : Nat) → Text → Group
  | _, [] => ⟨[], false, []⟩
  | depth, c :: t =>
    if c = '(' then (close (depth + 1) t).cons c
    else if c = ')' then
      if depth = 0 then ⟨[], true, t⟩ else (close (depth - 1) t).cons c
    else (close depth t).cons c

/-- The group whose opening parenthesis has just been read. -/
def group (t : Text) : Group := close 0 t

theorem tail_append_rest (depth : Nat) (t : Text) :
    (close depth t).tail ++ (close depth t).rest = t := by
  induction t generalizing depth with
  | nil => simp [close, Group.tail]
  | cons c t ih =>
    rw [close]
    split
    · exact congrArg (c :: ·) (ih _)
    · split
      · next h =>
        split
        · simp [Group.tail, h]
        · exact congrArg (c :: ·) (ih _)
      · exact congrArg (c :: ·) (ih _)

theorem length_group (t : Text) :
    (group t).body.length + (group t).rest.length ≤ t.length := by
  have h := congrArg List.length (tail_append_rest 0 t)
  simp only [Group.tail, List.length_append] at h
  simp only [group]
  omega

theorem length_body_le (t : Text) : (group t).body.length ≤ t.length := by
  have := length_group t; omega

theorem length_rest_le (t : Text) : (group t).rest.length ≤ t.length := by
  have := length_group t; omega

/-- A group located by positions: `stop` is just past its end. -/
structure Located where
  start : Nat
  stop : Nat
  body : Text
  closed : Bool
  deriving DecidableEq, Repr

/-- Why there is no group at a position. -/
inductive Missing
  | pastEnd
  | notOpen (index : Nat) (text : Text)
  deriving DecidableEq, Repr

def Missing.message : Missing → Text
  | pastEnd => "no character at the index"
  | notOpen index text =>
    "expected '(' at index " ++ Text.ofNat index ++ " of " ++ Text.quoted text

/-- The group that starts at a position of a text. -/
def locate (t : Text) (index : Nat) : Except Missing Located :=
  match t.drop index with
  | [] => .error .pastEnd
  | c :: rest =>
    if c = '(' then
      let g := group rest
      .ok ⟨index, index + 1 + g.tail.length, g.body, g.closed⟩
    else .error (.notOpen index t)

end CustomProperties.Parens
