import CustomProperties.Reference

/-! # Style sheets

A sheet is a list of rules. Style rules, the stages of keyframes and font faces own a body of
declarations; conditional groups contain further rules; any other rule is kept as it was written.
-/

namespace CustomProperties

structure Declaration where
  property : Text
  value : Text
  deriving DecidableEq, Repr

/-- What stands in a body. -/
inductive Entry
  | declaration (declaration : Declaration)
  | comment (text : Text)
  deriving DecidableEq, Repr

abbrev Body := List Entry

/-- What stands in a keyframes rule. -/
inductive Stage
  | keyframe (selectors : List Text) (body : Body)
  | comment (text : Text)
  deriving DecidableEq, Repr

/-- A keyframe among rules is out of place: nothing collects, visits or writes it. -/
inductive Rule
  | style (selectors : List Text) (body : Body)
  | container (keyword condition : Text) (rules : List Rule)
  | keyframes (name vendor : Text) (stages : List Stage)
  | fontFace (body : Body)
  | keyframe (selectors : List Text) (body : Body)
  | comment (text : Text)
  | unknown (raw : Text)
  deriving Repr, Inhabited

abbrev Sheet := List Rule

namespace Declaration

/-- Whether a custom property is defined. -/
def isDefinition (d : Declaration) : Bool := (Text.dropPrefix? "--" d.property).isSome

/-- Whether the value refers to a custom property. -/
def isReference (d : Declaration) : Bool := Reference.occursIn d.value

def isRelated (d : Declaration) : Bool := d.isDefinition || d.isReference

end Declaration

namespace Entry

def declaration? : Entry → Option Declaration
  | declaration d => some d
  | comment _ => none

def isDeclaration (e : Entry) : Bool := e.declaration?.isSome

def isDefinition (e : Entry) : Bool := e.declaration?.any (·.isDefinition)

def isReference (e : Entry) : Bool := e.declaration?.any (·.isReference)

/-- Whether an entry defines a custom property or refers to one. -/
def isRelated (e : Entry) : Bool := e.isDefinition || e.isReference

end Entry

def Body.declarations (b : Body) : List Declaration := b.filterMap Entry.declaration?

namespace Stage

/-- The keyframe as the owner of its body. -/
def owner? : Stage → Option Rule
  | keyframe selectors body => some (.keyframe selectors body)
  | comment _ => none

def body : Stage → Body
  | keyframe _ body => body
  | comment _ => []

def mapBody (f : Body → Body) : Stage → Stage
  | keyframe selectors body => keyframe selectors (f body)
  | comment text => comment text

end Stage

namespace Rule

def rootSelector : Text := ":root"

/-- The rule whose definitions hold for the whole sheet. -/
def root (body : Body) : Rule := style [rootSelector] body

def isRoot : Rule → Bool
  | style selectors _ => selectors == [rootSelector]
  | _ => false

def isComment : Rule → Bool
  | comment _ => true
  | _ => false

/-- The body of a rule that owns one. -/
def body : Rule → Body
  | style _ body => body
  | fontFace body => body
  | keyframe _ body => body
  | _ => []

mutual

/-- The rules and keyframes that own a body, in document order. -/
def owners : Rule → List Rule
  | container _ _ rules => ownersOf rules
  | keyframes _ _ stages => stages.filterMap Stage.owner?
  | style selectors body => [style selectors body]
  | fontFace body => [fontFace body]
  | keyframe _ _ => []
  | comment _ => []
  | unknown _ => []

def ownersOf : List Rule → List Rule
  | [] => []
  | r :: rs => r.owners ++ ownersOf rs

end

mutual

/-- Apply `f` to the body of every owner. -/
def mapBodies (f : Body → Body) : Rule → Rule
  | container keyword condition rules => container keyword condition (mapBodiesOf f rules)
  | keyframes name vendor stages => keyframes name vendor (stages.map (Stage.mapBody f))
  | style selectors body => style selectors (f body)
  | fontFace body => fontFace (f body)
  | keyframe selectors body => keyframe selectors body
  | comment text => comment text
  | unknown raw => unknown raw

def mapBodiesOf (f : Body → Body) : List Rule → List Rule
  | [] => []
  | r :: rs => r.mapBodies f :: mapBodiesOf f rs

end

@[simp] theorem ownersOf_eq (rs : List Rule) : ownersOf rs = rs.flatMap owners := by
  induction rs with
  | nil => rfl
  | cons r rs ih => simp [ownersOf, ih]

@[simp] theorem mapBodiesOf_eq (f : Body → Body) (rs : List Rule) :
    mapBodiesOf f rs = rs.map (mapBodies f) := by
  induction rs with
  | nil => rfl
  | cons r rs ih => simp [mapBodiesOf, ih]

/-! ### Equality of rules -/

mutual

/-- Whether two rules are equal. -/
def same : Rule → Rule → Bool
  | style ss b, style ss' b' => ss == ss' && b == b'
  | container k c rs, container k' c' rs' => k == k' && c == c' && sameAll rs rs'
  | keyframes n v ss, keyframes n' v' ss' => n == n' && v == v' && ss == ss'
  | fontFace b, fontFace b' => b == b'
  | keyframe ss b, keyframe ss' b' => ss == ss' && b == b'
  | comment t, comment t' => t == t'
  | unknown t, unknown t' => t == t'
  | _, _ => false

def sameAll : List Rule → List Rule → Bool
  | [], [] => true
  | r :: rs, r' :: rs' => same r r' && sameAll rs rs'
  | _, _ => false

end

mutual

theorem same_iff (r r' : Rule) : same r r' = true ↔ r = r' := by
  cases r with
  | container k c rs => cases r' <;> simp [same, sameAll_iff rs, and_assoc]
  | _ => cases r' <;> simp [same, and_assoc]

theorem sameAll_iff (rs rs' : List Rule) : sameAll rs rs' = true ↔ rs = rs' := by
  cases rs with
  | nil => cases rs' <;> simp [sameAll]
  | cons r rs => cases rs' <;> simp [sameAll, same_iff r, sameAll_iff rs]

end

instance : DecidableEq Rule := fun r r' => decidable_of_iff _ (same_iff r r')

end Rule

namespace Sheet

def owners (s : Sheet) : List Rule := s.flatMap Rule.owners

def mapBodies (f : Body → Body) (s : Sheet) : Sheet := s.map (Rule.mapBodies f)

/-- All declarations in document order. -/
def declarations (s : Sheet) : List Declaration := s.owners.flatMap fun r => r.body.declarations

end Sheet

end CustomProperties
