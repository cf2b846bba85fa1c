import CustomProperties.Calc
import CustomProperties.Log
import CustomProperties.Options.Basic
import CustomProperties.Sheet.Prune
import CustomProperties.Sheet.Read
import CustomProperties.Sheet.Walk
import CustomProperties.Sheet.Write
import CustomProperties.Variables

/-! # The transform

All variables are collected before any value is resolved, so that a reference may precede the
definition. A declaration whose value changes gets a resolved copy right after it, or takes the
resolved value itself if declarations are not preserved.
-/

namespace CustomProperties

/-- A declaration that refers to a variable, and what its value resolves to. -/
structure Site where
  declaration : Declaration
  resolution : Resolution
  deriving DecidableEq, Repr

namespace Site

def changes (s : Site) : Bool := s.resolution.text != s.declaration.value

/-- The declaration with its resolved value. -/
def resolved (fixNestedCalc : Bool) (s : Site) : Declaration :=
  let value := s.resolution.text
  { s.declaration with value := if fixNestedCalc then Calc.flatten value else value }

end Site

/-- A visit of a body: its entries, the position of the next one, and the sites met so far. -/
structure Scan where
  body : Body
  position : Nat
  sites : List Site

namespace Scan

def skip (s : Scan) : Scan := { s with position := s.position + 1 }

/-- The copy of a preserved declaration is stepped over. -/
def meet (o : Options) (site : Site) (s : Scan) : Scan :=
  let sites := s.sites ++ [site]
  let copy : Entry := .declaration (site.resolved o.fixNestedCalc)
  if !site.changes then { s.skip with sites }
  else if o.preserve then ⟨s.body.insertIdx (s.position + 1) copy, s.position + 2, sites⟩
  else ⟨s.body.set s.position copy, s.position + 1, sites⟩

/-- Visit an entry, which stands at the position. -/
def step (o : Options) (b : Bindings) (s : Scan) : Entry → Scan
  | .comment _ => s.skip
  | .declaration d => if d.isReference then s.meet o ⟨d, resolve b d.value⟩ else s.skip

def left (s : Scan) : Nat := s.body.length - s.position

theorem left_meet_lt {s : Scan} (h : s.position < s.body.length) (o : Options) (site : Site) :
    (s.meet o site).left < s.left := by
  have hi := List.length_insertIdx_of_le_length (show s.position + 1 ≤ s.body.length from h)
    (.declaration (site.resolved o.fixNestedCalc))
  unfold meet left skip
  split
  · dsimp only; omega
  · split
    · dsimp only; omega
    · dsimp only; rw [List.length_set]; omega

theorem left_step_lt {s : Scan} (h : s.position < s.body.length) (o : Options) (b : Bindings)
    (e : Entry) : (s.step o b e).left < s.left := by
  unfold step
  split
  · unfold left skip; dsimp only; omega
  · split
    · exact left_meet_lt h o _
    · unfold left skip; dsimp only; omega

def run (o : Options) (b : Bindings) (s : Scan) : Scan :=
  match _ : s.body[s.position]? with
  | none => s
  | some e => (s.step o b e).run o b
termination_by s.left
decreasing_by exact left_step_lt (List.getElem?_eq_some_iff.mp ‹_›).1 o b e

end Scan

/-- Resolve the values of a body, which adds to the sites met so far. -/
def Body.visit (o : Options) (b : Bindings) (body : Body) : StateM (List Site) Body := fun sites =>
  let s := Scan.run o b ⟨body, 0, sites⟩
  (s.body, s.sites)

/-- A transformed sheet, with the variables it was resolved under and the sites that were met. -/
structure Outcome where
  sheet : Sheet
  bindings : Bindings
  sites : List Site

namespace Outcome

def warnings (out : Outcome) : List Warning := out.sites.flatMap fun s => s.resolution.warnings

def resolvedCount (out : Outcome) : Nat := out.sites.countP Site.changes

def events (out : Outcome) : List Event :=
  [.collected out.bindings.size] ++ out.warnings.map .warned ++
    [.resolved out.resolvedCount out.bindings.size]

end Outcome

namespace Sheet

/-- The sheet whose variables are collected. -/
def pruned (o : Options) (s : Sheet) : Sheet := if o.onlyVariables then s.prune else s

def transform (o : Options) (s : Sheet) : Outcome :=
  let collected := (s.pruned o).collect o.overrides o.preserve
  let (sheet, sites) := (collected.sheet.walk (Body.visit o collected.bindings)).run []
  ⟨sheet, collected.bindings, sites⟩

end Sheet

/-- Transform the text of a sheet, whose integers may have any number of digits. -/
def transform (o : Options) (css : Text) : Traced (Except ParseError Text) :=
  match Sheet.read css with
  | .error e => ⟨.error e, []⟩
  | .ok s => ⟨.ok (s.transform o).sheet.text, .parsed s.length :: (s.transform o).events⟩

/-- Transform the text of a sheet, if its integers are read. -/
def transformLimited (o : Options) (css : Text) : Traced (Except Sheet.Unread Text) :=
  match Sheet.longNumber? css with
  | some number => ⟨.error (.number number), []⟩
  | none => ⟨(transform o css).result.mapError .reported, (transform o css).events⟩

end CustomProperties
