import CustomProperties.Sheet.Prune
import CustomProperties.Variables
import Mathlib.Data.List.Basic
import Mathlib.Data.List.Flatten

/-! # Bodies and declarations

A function on bodies goes through the tree of a sheet one rule at a time, and so do the
declarations of the sheet. Dropping the definitions of root rules takes declarations away and
leaves the order of the others. What pruning leaves of a rule is told by the kind of the rule.
-/

namespace CustomProperties

namespace Body

theorem declarations_append (body body' : Body) :
    declarations (body ++ body') = declarations body ++ declarations body' :=
  List.filterMap_append

/-- A filter on entries is one on declarations; what it does to comments is of no matter. -/
theorem declarations_filter {f : Entry → Bool} {g : Declaration → Bool}
    (h : ∀ d, f (.declaration d) = g d) (body : Body) :
    declarations (body.filter f) = body.declarations.filter g := by
  induction body with
  | nil => rfl
  | cons e body ih =>
    cases e with
    | comment text =>
      by_cases hf : f (.comment text) <;>
        simpa [declarations, List.filterMap_cons, Entry.declaration?, hf] using ih
    | declaration d =>
      by_cases hg : g d <;>
        simpa [declarations, List.filterMap_cons, Entry.declaration?, h d, hg] using ih

theorem declarations_eq_nil {body : Body} (h : body.any Entry.isDeclaration = false) :
    body.declarations = [] := by
  rw [declarations, List.filterMap_eq_nil_iff]
  intro e he
  have hn := List.any_eq_false.mp h e he
  simpa [Entry.isDeclaration] using hn

end Body

theorem Stage.mapBody_mapBody (g f : Body → Body) (st : Stage) :
    (st.mapBody f).mapBody g = st.mapBody (g ∘ f) := by
  cases st <;> rfl

namespace Rule

/-- What is left of a rule that is not dropped. -/
inductive Leaves : Rule → Rule → Prop

  | style {selectors : List Text} {body : Body} : body.anyRelated = true →
      Leaves (.style selectors body) (.style selectors body.related)

  | fontFace {body : Body} : body.anyRelated = true → Leaves (.fontFace body) (.fontFace body)

  | keyframes {name vendor : Text} {stages : List Stage} :
      (stages.any fun st => Body.anyRelated st.body) = true →
      Leaves (.keyframes name vendor stages) (.keyframes name vendor stages)

  | container {keyword condition : Text} {rules : List Rule} :
      ¬(pruneAll rules).all isComment = true →
      Leaves (.container keyword condition rules) (.container keyword condition (pruneAll rules))

  | keyframe {selectors : List Text} {body : Body} :
      Leaves (.keyframe selectors body) (.keyframe selectors body)

  | comment {text : Text} : Leaves (.comment text) (.comment text)

  | unknown {raw : Text} : Leaves (.unknown raw) (.unknown raw)

theorem prune_eq_some_iff {r r' : Rule} : r.prune = some r' ↔ Leaves r r' := by
  constructor
  · intro h
    cases r with
    | style selectors body =>
      obtain ⟨ha, ⟨⟩⟩ := Option.ite_none_right_eq_some.mp h
      exact .style ha
    | fontFace body =>
      obtain ⟨ha, ⟨⟩⟩ := Option.ite_none_right_eq_some.mp h
      exact .fontFace ha
    | keyframes name vendor stages =>
      obtain ⟨ha, ⟨⟩⟩ := Option.ite_none_right_eq_some.mp h
      exact .keyframes ha
    | container keyword condition rules =>
      obtain ⟨hc, ⟨⟩⟩ := Option.ite_none_left_eq_some.mp h
      exact .container hc
    | keyframe selectors body => cases h; exact .keyframe
    | comment text => cases h; exact .comment
    | unknown raw => cases h; exact .unknown
  · intro h
    cases h with
    | style ha => exact if_pos ha
    | fontFace ha => exact if_pos ha
    | keyframes ha => exact if_pos ha
    | container hc => exact if_neg hc
    | _ => rfl

mutual

theorem mapBodies_mapBodies (g f : Body → Body) (r : Rule) :
    (r.mapBodies f).mapBodies g = r.mapBodies (g ∘ f) := by
  cases r with
  | container keyword condition rules =>
    rw [mapBodies, mapBodies, mapBodies, mapBodiesOf_mapBodiesOf]
  | keyframes name vendor stages =>
    rw [mapBodies, mapBodies, mapBodies, List.map_map]
    congr 1
    exact List.map_congr_left fun st _ => st.mapBody_mapBody g f
  | _ => simp only [mapBodies, Function.comp_apply]

theorem mapBodiesOf_mapBodiesOf (g f : Body → Body) (rs : List Rule) :
    mapBodiesOf g (mapBodiesOf f rs) = mapBodiesOf (g ∘ f) rs := by
  cases rs with
  | nil => rfl
  | cons r rs => rw [mapBodiesOf, mapBodiesOf, mapBodiesOf, mapBodies_mapBodies g f r,
      mapBodiesOf_mapBodiesOf g f rs]

end

theorem dropDefinitions_mapBodies {f : Body → Body}
    (hf : ∀ body, (f body).filter (!·.isDefinition) = f (body.filter (!·.isDefinition)))
    (r : Rule) : (r.mapBodies f).dropDefinitions = r.dropDefinitions.mapBodies f := by
  cases r with
  | style selectors body =>
    rw [mapBodies, dropDefinitions, dropDefinitions]
    split
    · rw [mapBodies, hf]
    · rw [mapBodies]
  | _ => rfl

def declarations (r : Rule) : List Declaration := r.owners.flatMap fun o => o.body.declarations

theorem declarations_style (selectors : List Text) (body : Body) :
    (style selectors body).declarations = body.declarations := List.flatMap_singleton ..

theorem declarations_fontFace (body : Body) : (fontFace body).declarations = body.declarations :=
  List.flatMap_singleton ..

theorem declarations_keyframes (name vendor : Text) (stages : List Stage) :
    (keyframes name vendor stages).declarations =
      stages.flatMap fun st => st.body.declarations := by
  rw [declarations, owners]
  induction stages with
  | nil => rfl
  | cons st stages ih =>
    cases st with
    | comment t => exact ih
    | keyframe selectors body => exact congrArg (body.declarations ++ ·) ih

theorem declarations_container (keyword condition : Text) (rules : List Rule) :
    (container keyword condition rules).declarations = rules.flatMap declarations := by
  rw [declarations, owners, ownersOf_eq, List.flatMap_assoc]
  rfl

mutual

theorem declarations_mapBodies {f : Body → Body} {g : Declaration → List Declaration}
    (h : ∀ body : Body, (f body).declarations = body.declarations.flatMap g) (r : Rule) :
    (r.mapBodies f).declarations = r.declarations.flatMap g := by
  cases r with
  | style selectors body => rw [mapBodies, declarations_style, declarations_style, h]
  | fontFace body => rw [mapBodies, declarations_fontFace, declarations_fontFace, h]
  | keyframes name vendor stages =>
    rw [mapBodies, declarations_keyframes, declarations_keyframes, List.flatMap_map,
      List.flatMap_assoc]
    refine List.flatMap_congr fun st _ => ?_
    cases st with
    | comment text => rfl
    | keyframe selectors body => exact h body
  | container keyword condition rules =>
    rw [mapBodies, declarations_container, declarations_container, declarations_mapBodiesOf h rules]
  | _ => rfl

theorem declarations_mapBodiesOf {f : Body → Body} {g : Declaration → List Declaration}
    (h : ∀ body : Body, (f body).declarations = body.declarations.flatMap g) (rs : List Rule) :
    (mapBodiesOf f rs).flatMap declarations = (rs.flatMap declarations).flatMap g := by
  cases rs with
  | nil => rfl
  | cons r rs =>
    rw [mapBodiesOf, List.flatMap_cons, List.flatMap_cons, List.flatMap_append,
      declarations_mapBodies h r, declarations_mapBodiesOf h rs]

end

theorem dropDefinitions_declarations (r : Rule) :
    (r.dropDefinitions.declarations).Sublist r.declarations := by
  cases r with
  | style selectors body =>
    rw [dropDefinitions]
    split
    · simp only [declarations, owners, List.flatMap_singleton, Rule.body]
      exact (List.filter_sublist).filterMap _
    · exact List.Sublist.refl _
  | _ => exact List.Sublist.refl _

end Rule

namespace Sheet

theorem mapBodies_mapBodies (g f : Body → Body) (s : Sheet) :
    (s.mapBodies f).mapBodies g = s.mapBodies (g ∘ f) := by
  rw [mapBodies, mapBodies, mapBodies, List.map_map]
  exact List.map_congr_left fun r _ => r.mapBodies_mapBodies g f

theorem declarations_eq (s : Sheet) : s.declarations = s.flatMap Rule.declarations := by
  rw [declarations, owners, List.flatMap_assoc]
  rfl

theorem declarations_mapBodies {f : Body → Body} {g : Declaration → List Declaration}
    (h : ∀ body : Body, (f body).declarations = body.declarations.flatMap g) (s : Sheet) :
    (s.mapBodies f).declarations = s.declarations.flatMap g := by
  rw [declarations_eq, declarations_eq, mapBodies, ← Rule.mapBodiesOf_eq]
  exact Rule.declarations_mapBodiesOf h s

theorem declarations_append (s s' : Sheet) :
    declarations (s ++ s') = declarations s ++ declarations s' := by
  rw [declarations_eq, declarations_eq, declarations_eq, List.flatMap_append]

def references (s : Sheet) : List Declaration := s.declarations.filter Declaration.isReference

theorem references_append (s s' : Sheet) :
    references (s ++ s') = s.references ++ s'.references := by
  rw [references, declarations_append, List.filter_append]
  rfl

theorem declarations_dropDefinitions (s : Sheet) :
    (declarations (s.map Rule.dropDefinitions)).Sublist s.declarations := by
  rw [declarations_eq, declarations_eq, List.flatMap_map]
  exact List.Sublist.flatMap_right s fun r _ => r.dropDefinitions_declarations

end Sheet

end CustomProperties
