import CustomProperties.Proofs.Sheet.Concatenation
import CustomProperties.Proofs.Sheet.Reading
import CustomProperties.Proofs.Transform.Run

/-! # Sheets that can be written

The writer refuses a keyframe that stands among rules. No text is read as one, and none of the
passes of a run makes one, so every sheet that they can produce, in whatever order they are
applied, is written.
-/

namespace CustomProperties

namespace Rule

theorem hasStrayKeyframe_container (keyword condition : Text) (rs : List Rule) :
    hasStrayKeyframe (.container keyword condition rs) = anyStrayKeyframe rs := rfl

theorem anyStrayKeyframe_append (rs rs' : List Rule) :
    anyStrayKeyframe (rs ++ rs') = (anyStrayKeyframe rs || anyStrayKeyframe rs') := by
  rw [anyStrayKeyframe_eq, anyStrayKeyframe_eq, anyStrayKeyframe_eq, List.any_append]

theorem anyStrayKeyframe_map {f : Rule → Rule}
    (h : ∀ r, (f r).hasStrayKeyframe = r.hasStrayKeyframe) (rs : List Rule) :
    anyStrayKeyframe (rs.map f) = anyStrayKeyframe rs := by
  rw [anyStrayKeyframe_eq, anyStrayKeyframe_eq, List.any_map]
  exact congrArg rs.any (funext h)

theorem hasStrayKeyframe_dropDefinitions (r : Rule) :
    r.dropDefinitions.hasStrayKeyframe = r.hasStrayKeyframe := by
  cases r with
  | style selectors body =>
    rw [dropDefinitions]
    split <;> rfl
  | _ => rfl

mutual

theorem hasStrayKeyframe_mapBodies (f : Body → Body) (r : Rule) :
    (r.mapBodies f).hasStrayKeyframe = r.hasStrayKeyframe := by
  cases r with
  | container keyword condition rules =>
    rw [mapBodies, hasStrayKeyframe_container, hasStrayKeyframe_container,
      anyStrayKeyframe_mapBodiesOf f rules]
  | _ => rfl

theorem anyStrayKeyframe_mapBodiesOf (f : Body → Body) (rs : List Rule) :
    anyStrayKeyframe (mapBodiesOf f rs) = anyStrayKeyframe rs := by
  cases rs with
  | nil => rfl
  | cons r rs =>
    rw [mapBodiesOf, anyStrayKeyframe, anyStrayKeyframe, hasStrayKeyframe_mapBodies f r,
      anyStrayKeyframe_mapBodiesOf f rs]

end

mutual

/-- Pruning keeps no keyframe among rules that did not stand there before. -/
theorem hasStrayKeyframe_of_prune (r : Rule) (h : r.hasStrayKeyframe = false) :
    ∀ kept ∈ r.prune, kept.hasStrayKeyframe = false := by
  intro kept hk
  cases prune_eq_some_iff.mp hk with
  | @container _ _ rules => exact anyStrayKeyframe_pruneAll rules h
  | keyframe => contradiction
  | _ => rfl

theorem anyStrayKeyframe_pruneAll (rs : List Rule) (h : anyStrayKeyframe rs = false) :
    anyStrayKeyframe (pruneAll rs) = false := by
  cases rs with
  | nil => rfl
  | cons r rs =>
    rw [anyStrayKeyframe, Bool.or_eq_false_iff] at h
    have hr := hasStrayKeyframe_of_prune r h.1
    have hrs := anyStrayKeyframe_pruneAll rs h.2
    rw [pruneAll]
    split
    next => exact hrs
    next kept hk => rw [anyStrayKeyframe, hr kept hk, hrs, Bool.or_false]

end

end Rule

namespace Sheet

variable {s : Sheet}

def Writable (s : Sheet) : Prop := Rule.anyStrayKeyframe s = false

theorem Writable.write_eq (h : s.Writable) : s.write = .ok s.text := by
  rw [write, h]
  rfl

theorem ReadsRules.writable {whole : Bool} {ns : List Syntax.Node} {rs : List Rule}
    (h : ReadsRules whole ns rs) : Writable rs := by
  have hc {r : Rule} {rs : List Rule} (hr : r.hasStrayKeyframe = false) (hs : Writable rs) :
      Writable (r :: rs) := by
    rw [Writable, Rule.anyStrayKeyframe, hr]
    exact hs
  induction h with
  | nil => rfl
  | container _ _ _ _ ihc ih => exact hc ihc ih
  | comment _ _ ih => exact hc rfl ih
  | style _ _ _ ih => exact hc rfl ih
  | statement _ _ ih => exact hc rfl ih
  | keyframes _ _ _ _ ih => exact hc rfl ih
  | fontFace _ _ _ _ ih => exact hc rfl ih
  | unknown _ _ _ ih => exact hc rfl ih

theorem Writable.prune (h : s.Writable) : s.prune.Writable := by
  have hp := Rule.anyStrayKeyframe_pruneAll s h
  rwa [Rule.pruneAll_eq] at hp

theorem Writable.collect (h : s.Writable) (overrides : Bindings) (preserve : Bool) :
    (s.collect overrides preserve).sheet.Writable := by
  rw [collect_eq]
  dsimp only
  unfold afterCollection
  split
  · split
    · exact h
    · rw [Writable, Rule.anyStrayKeyframe_append, h]
      rfl
  · rw [Writable, Rule.anyStrayKeyframe_map Rule.hasStrayKeyframe_dropDefinitions]
    exact h

theorem Writable.walk (h : s.Writable) (o : Options) (b : Bindings) (log : List Site) :
    ((s.walk (Body.visit o b)).run log).1.Writable := by
  have hw := s.walk_eq (Body.visit_eq o b) log
  have he : ((s.walk (Body.visit o b)).run log).1 = s.mapBodies (Body.resolved o b) :=
    congrArg Prod.fst hw
  rw [he, Writable, mapBodies, Rule.anyStrayKeyframe_map (Rule.hasStrayKeyframe_mapBodies _)]
  exact h

/-- The sheets that reading, pruning, collecting and resolving can produce. -/
inductive Produced : Sheet → Prop

  | read {css : Text} {s : Sheet} : Sheet.read css = .ok s → Produced s

  | prune {s : Sheet} : Produced s → Produced s.prune

  | collect {s : Sheet} (overrides : Bindings) (preserve : Bool) :
      Produced s → Produced (s.collect overrides preserve).sheet

  | resolve {s : Sheet} (o : Options) (b : Bindings) (log : List Site) :
      Produced s → Produced ((s.walk (Body.visit o b)).run log).1

theorem Produced.writable (h : Produced s) : s.Writable := by
  induction h with
  | read hr => exact (readsRules_of_read hr).writable
  | prune _ ih => exact ih.prune
  | collect overrides preserve _ ih => exact ih.collect overrides preserve
  | resolve o b log _ ih => exact ih.walk o b log

theorem Produced.transform (h : Produced s) (o : Options) : Produced (s.transform o).sheet := by
  have hp : Produced (s.pruned o) := by
    unfold pruned
    split
    · exact h.prune
    · exact h
  exact (hp.collect o.overrides o.preserve).resolve o _ []

end Sheet

end CustomProperties
