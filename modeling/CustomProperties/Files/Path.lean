import CustomProperties.Text.Order

/-! # Paths

A path is a list of components below a start. Empty components and single dots are dropped, and
double dots are kept.
-/

namespace CustomProperties

structure Path where
  anchor : Text
  parts : List Text
  deriving DecidableEq, Repr

namespace Path

/-- The components of a text between slashes. -/
def components : Text → List Text
  | [] => [[]]
  | c :: t => if c = '/' then [] :: components t else (components t).modifyHead (c :: ·)

/-- Two slashes in front, and no more, are a start of their own. -/
def anchorOf (t : Text) : Text :=
  match t.takeWhile (· == '/') with
  | [] => []
  | ['/', '/'] => "//"
  | _ => "/"

def ofText (t : Text) : Path :=
  ⟨anchorOf t, (components t).filter fun p => p ≠ [] ∧ p ≠ ['.']⟩

def text (p : Path) : Text :=
  if p.anchor = [] ∧ p.parts = [] then ['.'] else p.anchor ++ ['/'].intercalate p.parts

/-- The path without its last component. -/
def parent (p : Path) : Path := { p with parts := p.parts.dropLast }

def join (p : Path) (more : List Text) : Path := { p with parts := p.parts ++ more }

/-- Whether a path names a style sheet. -/
def isStyleSheet (p : Path) : Bool :=
  p.parts.getLast?.any fun name => (".css" : Text).isSuffixOf name

/-- Paths are ordered by their components. -/
def before (p q : Path) : Bool := !decide (q.parts < p.parts)

def sort (ps : List Path) : List Path := ps.mergeSort before

end Path

end CustomProperties
