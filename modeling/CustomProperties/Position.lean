import CustomProperties.Text.Lines

/-! # Positions and parse errors

Lines and columns count from one. An error shows the part of its line that lies around its column.
-/

namespace CustomProperties

structure Position where
  line : Nat
  column : Nat
  deriving DecidableEq, Repr

/-- The position of `rest`, a final part of a text whose lines end in line feeds. -/
def Position.ofRest (whole rest : Text) : Position :=
  let before := whole.take (whole.length - rest.length)
  ⟨before.count '\n' + 1, (before.reverse.takeWhile (· ≠ '\n')).length + 1⟩

/-- How many characters of its line an error shows on either side. -/
def contextRadius : Nat := 30

/-- The part of the line around a position. -/
def Position.context (source : Text) (p : Position) : Text :=
  match (Text.lines source)[p.line - 1]? with
  | none => []
  | some line =>
    let column := p.column - 1
    let start := column - contextRadius
    Text.strip ((line.drop start).take (column + contextRadius - start))

/-- A structural error of a style sheet. -/
structure ParseError where
  reason : Text
  line : Option Int
  column : Option Int
  context : Text
  deriving DecidableEq, Repr

namespace ParseError

def ofPosition (reason source : Text) (p : Position) : ParseError :=
  ⟨reason, some p.line, some p.column, p.context source⟩

def numberText : Option Int → Text
  | none => "None"
  | some n => toString n

def location (e : ParseError) : Text :=
  if e.line.isNone then [] else " at " ++ numberText e.line ++ [':'] ++ numberText e.column

def excerpt (e : ParseError) : Text :=
  if e.context.isEmpty then [] else " near \"" ++ e.context ++ ['"']

def message (e : ParseError) : Text :=
  "CSS parse error" ++ e.location ++ ": " ++ e.reason ++ e.excerpt

end ParseError

end CustomProperties
