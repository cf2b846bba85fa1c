import CustomProperties.Proofs.Sheet.Bodies
import CustomProperties.Sheet.Write
import CustomProperties.Transform

/-! # Concatenated sheets

Everything that a run does to a sheet is done rule by rule, so it commutes with putting one sheet
after another.
-/

namespace CustomProperties

namespace Rule

theorem writeAll_eq (rs : List Rule) : writeAll rs = rs.flatMap write := by
  induction rs with
  | nil => rfl
  | cons r rs ih => rw [writeAll, ih, List.flatMap_cons]

theorem anyStrayKeyframe_eq (rs : List Rule) : anyStrayKeyframe rs = rs.any hasStrayKeyframe := by
  induction rs with
  | nil => rfl
  | cons r rs ih => rw [anyStrayKeyframe, ih, List.any_cons]

end Rule

namespace Sheet

theorem text_append (s s' : Sheet) : text (s ++ s') = s.text ++ s'.text := by
  rw [text, text, text, Rule.writeAll_eq, Rule.writeAll_eq, Rule.writeAll_eq, List.flatMap_append]

theorem prune_append (s s' : Sheet) : prune (s ++ s') = s.prune ++ s'.prune :=
  List.filterMap_append

theorem pruned_append (o : Options) (s s' : Sheet) :
    pruned o (s ++ s') = s.pruned o ++ s'.pruned o := by
  unfold pruned
  split
  · exact prune_append s s'
  · rfl

theorem mapBodies_append (f : Body → Body) (s s' : Sheet) :
    mapBodies f (s ++ s') = s.mapBodies f ++ s'.mapBodies f :=
  List.map_append

theorem definitions_append (s s' : Sheet) :
    definitions (s ++ s') = s.definitions ++ s'.definitions :=
  List.flatMap_append

end Sheet

end CustomProperties
