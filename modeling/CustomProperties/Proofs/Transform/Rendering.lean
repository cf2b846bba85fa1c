import CustomProperties.Proofs.Transform.Overrides

/-! # What a run writes

Under given bindings a run writes rules one by one: what becomes of a sheet is what becomes of its
rules, one after the other, and the text of the override rule behind them.
-/

namespace CustomProperties

namespace Sheet

/-- The text of a sheet that is pruned, taken its definitions from unless they are preserved, and
resolved under given bindings. -/
def rendering (o : Options) (b : Bindings) (s : Sheet) : Text :=
  text ((((s.pruned o).collect .empty o.preserve).sheet.walk (Body.visit o b)).run []).1

def overrideRendering (o : Options) (b : Bindings) : Text :=
  if o.preserve ∧ o.overrides.isEmpty = false then
    text ((walk (Body.visit o b) [overrideRule o.overrides]).run []).1
  else []

variable {o : Options} {b : Bindings}

theorem text_walk (o : Options) (b : Bindings) (s : Sheet) :
    text ((s.walk (Body.visit o b)).run []).1 = (s.mapBodies (Body.resolved o b)).text := by
  have hw := s.walk_eq (Body.visit_eq o b) []
  exact congrArg (fun p => text p.1) hw

theorem rendering_eq (o : Options) (b : Bindings) (s : Sheet) :
    s.rendering o b =
      (((s.pruned o).afterCollection .empty o.preserve).mapBodies (Body.resolved o b)).text := by
  rw [rendering, text_walk, collect_eq]

theorem rendering_append (s s' : Sheet) :
    rendering o b (s ++ s') = s.rendering o b ++ s'.rendering o b := by
  have ha (t t' : Sheet) : afterCollection (t ++ t') .empty o.preserve =
      t.afterCollection .empty o.preserve ++ t'.afterCollection .empty o.preserve := by
    unfold afterCollection
    split
    · rfl
    · exact List.map_append
  rw [rendering_eq, rendering_eq, rendering_eq, pruned_append, ha, mapBodies_append, text_append]

theorem rendering_nil : rendering o b [] = [] := by
  rw [rendering_eq, pruned, afterCollection]
  cases o.onlyVariables <;> cases o.preserve <;> rfl

theorem rendering_flatten (ss : List Sheet) :
    rendering o b ss.flatten = ss.flatMap (rendering o b) := by
  induction ss with
  | nil => exact rendering_nil
  | cons s ss ih => rw [List.flatten_cons, rendering_append, ih, List.flatMap_cons]

theorem rendering_comment (t : Text) : rendering o b [.comment t] = "/*" ++ t ++ "*/" := by
  have hw : text [.comment t] = "/*" ++ t ++ "*/" := List.append_nil _
  rw [rendering_eq, pruned, afterCollection]
  cases o.onlyVariables <;> cases o.preserve <;> exact hw

theorem afterCollection_eq (overrides : Bindings) (preserve : Bool) (s : Sheet) :
    s.afterCollection overrides preserve = s.afterCollection .empty preserve ++
      if preserve ∧ overrides.isEmpty = false then [overrideRule overrides] else [] := by
  unfold afterCollection
  cases preserve with
  | false => simp
  | true =>
    cases overrides.isEmpty
    · rfl
    · exact (List.append_nil s).symm

/-- What a run writes is what it renders of the sheet and of the override rule. -/
theorem text_transform (o : Options) (s : Sheet) :
    (s.transform o).sheet.text =
      s.rendering o (s.bindings o.overrides) ++ overrideRendering o (s.bindings o.overrides) := by
  rw [transform_eq, bindings_pruned, visited, afterCollection_eq, rendering_eq, overrideRendering]
  dsimp only
  rw [mapBodies_append, text_append]
  congr 1
  split
  · exact (text_walk o _ _).symm
  · rfl

end Sheet

end CustomProperties
