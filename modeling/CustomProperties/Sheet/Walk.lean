import CustomProperties.Sheet.Basic

/-! # Walks

A walk visits the bodies of a sheet where they stand, in document order. A visit may change the
body, and all visits of a walk share a state.
-/

namespace CustomProperties

variable {σ : Type}

def Stage.walk (visit : Body → StateM σ Body) : Stage → StateM σ Stage
  | keyframe selectors body => return keyframe selectors (← visit body)
  | comment text => return comment text

namespace Rule

mutual

def walk (visit : Body → StateM σ Body) : Rule → StateM σ Rule
  | container keyword condition rules => return container keyword condition (← walkAll visit rules)
  | keyframes name vendor stages => return keyframes name vendor (← stages.mapM (Stage.walk visit))
  | style selectors body => return style selectors (← visit body)
  | fontFace body => return fontFace (← visit body)
  | keyframe selectors body => return keyframe selectors body
  | comment text => return comment text
  | unknown raw => return unknown raw

def walkAll (visit : Body → StateM σ Body) : List Rule → StateM σ (List Rule)
  | [] => return []
  | r :: rs => return (← r.walk visit) :: (← walkAll visit rs)

end

end Rule

def Sheet.walk (visit : Body → StateM σ Body) (s : Sheet) : StateM σ Sheet := Rule.walkAll visit s

end CustomProperties
