import CustomProperties.Sheet.Basic

/-! # Pruning

What neither defines nor uses a custom property is dropped. The declarations of a font face or of
a keyframes rule only make sense together, so such a rule is kept whole or not at all. A container
that holds nothing but comments is empty.
-/

namespace CustomProperties

def Body.related (b : Body) : Body := b.filter Entry.isRelated

def Body.anyRelated (b : Body) : Bool := b.any Entry.isRelated

namespace Rule

mutual

/-- What is left of a rule. -/
def prune : Rule → Option Rule
  | style selectors body =>
    if Body.anyRelated body then some (style selectors (Body.related body)) else none
  | fontFace body => if Body.anyRelated body then some (fontFace body) else none
  | keyframes name vendor stages =>
    if stages.any fun s => Body.anyRelated s.body then some (keyframes name vendor stages) else none
  | container keyword condition rules =>
    if (pruneAll rules).all isComment then none
    else some (container keyword condition (pruneAll rules))
  | keyframe selectors body => some (keyframe selectors body)
  | comment text => some (comment text)
  | unknown raw => some (unknown raw)

def pruneAll : List Rule → List Rule
  | [] => []
  | r :: rs =>
    match r.prune with
    | none => pruneAll rs
    | some kept => kept :: pruneAll rs

end

@[simp] theorem pruneAll_eq (rs : List Rule) : pruneAll rs = rs.filterMap prune := by
  induction rs with
  | nil => rfl
  | cons r rs ih => cases h : r.prune <;> simp [pruneAll, h, ih]

end Rule

def Sheet.prune (s : Sheet) : Sheet := s.filterMap Rule.prune

end CustomProperties
