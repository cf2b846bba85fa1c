import CustomProperties.Proofs.Sheet.Writable
import CustomProperties.Proofs.Transform.Pruning
import CustomProperties.Proofs.Transform.Rendering

/-! # The order of rules

The bindings of a sheet come from its root rules, and under given bindings every rule is dealt with
on its own. So other rules may be put in another order, and only their texts and sites change
places.
-/

namespace CustomProperties

namespace Sheet

variable {s s' : Sheet} {o : Options}

theorem definitions_filter_isRoot (s : Sheet) : definitions (s.filter Rule.isRoot) = s.definitions := by
  induction s with
  | nil => rfl
  | cons r s ih =>
    have hc : definitions (r :: s) = r.definitions ++ definitions s := List.flatMap_cons
    rw [hc, ← ih]
    cases hr : r.isRoot with
    | true => rw [List.filter_cons_of_pos hr, definitions, List.flatMap_cons, ← definitions]
    | false =>
      rw [List.filter_cons_of_neg (Bool.eq_false_iff.mp hr), r.definitions_of_not_isRoot hr,
        List.nil_append]

theorem bindings_congr (h : s'.filter Rule.isRoot = s.filter Rule.isRoot) (overrides : Bindings) :
    s'.bindings overrides = s.bindings overrides := by
  rw [bindings, bindings, ← definitions_filter_isRoot s', h, definitions_filter_isRoot]

theorem rendering_eq_flatMap (b : Bindings) (s : Sheet) :
    s.rendering o b = s.flatMap fun r => rendering o b [r] := by
  have h := rendering_flatten (o := o) (b := b) (s.map fun r => [r])
  rwa [← List.flatMap_def, List.flatMap_singleton', List.flatMap_map] at h

theorem pruned_perm (h : s'.Perm s) : (s'.pruned o).Perm (s.pruned o) := by
  unfold pruned
  split
  · exact h.filterMap Rule.prune
  · exact h

theorem visited_perm (h : s'.Perm s) : (s'.visited o).Perm (s.visited o) := by
  have hp := pruned_perm (o := o) h
  unfold visited afterCollection
  split
  · split
    · exact hp
    · exact hp.append_right _
  · exact hp.map _

theorem references_perm (h : s'.Perm s) : s'.references.Perm s.references := by
  rw [references_eq, references_eq]
  exact h.flatMap_right _

theorem isOk_write (s : Sheet) : s.write.isOk = !Rule.anyStrayKeyframe s := by
  rw [write]
  cases Rule.anyStrayKeyframe s <;> rfl

theorem anyStrayKeyframe_perm (h : s'.Perm s) :
    Rule.anyStrayKeyframe s' = Rule.anyStrayKeyframe s := by
  rw [Rule.anyStrayKeyframe_eq, Rule.anyStrayKeyframe_eq]
  exact h.any_eq

end Sheet

/-- When rules are put in another order in which the root rules follow each other as before, a run
collects the same bindings and turns every rule into the same text, with the same override rule at
the end. The same values are resolved to the same results. -/
theorem transform_reordered {s s' : Sheet} (hp : s'.Perm s)
    (hr : s'.filter Rule.isRoot = s.filter Rule.isRoot) (o : Options) :
    let b := (s.transform o).bindings
    (s'.transform o).bindings = b ∧
      (s.transform o).sheet.text =
        (s.flatMap fun r => Sheet.rendering o b [r]) ++ Sheet.overrideRendering o b ∧
      (s'.transform o).sheet.text =
        (s'.flatMap fun r => Sheet.rendering o b [r]) ++ Sheet.overrideRendering o b ∧
      (s'.transform o).sites.Perm (s.transform o).sites ∧
      (s'.transform o).sheet.write.isOk = (s.transform o).sheet.write.isOk := by
  intro b
  have hb : b = s.bindings o.overrides :=
    (s.bindings_transform o).trans (s.bindings_pruned o o.overrides)
  have hb' : (s'.transform o).bindings = b := by
    rw [Sheet.bindings_transform, Sheet.bindings_pruned, Sheet.bindings_congr hr, hb]
  refine ⟨hb', ?_, ?_, ?_, ?_⟩
  · rw [Sheet.text_transform, ← hb, Sheet.rendering_eq_flatMap]
  · rw [Sheet.text_transform, Sheet.bindings_congr hr, ← hb, Sheet.rendering_eq_flatMap]
  · rw [Sheet.sites_transform, Sheet.sites_transform, hb']
    exact (Sheet.references_perm (Sheet.visited_perm hp)).map _
  · have hs : (s'.transform o).sheet.Perm (s.transform o).sheet := by
      rw [Sheet.transform_eq, Sheet.transform_eq, Sheet.bindings_pruned, Sheet.bindings_pruned,
        Sheet.bindings_congr hr]
      exact (Sheet.visited_perm hp).map _
    rw [Sheet.isOk_write, Sheet.isOk_write, Sheet.anyStrayKeyframe_perm hs]

/-- A reference before its definition, and behind it. -/
theorem transform_reordered_around_definition :
    let use : Rule := .style ["a"] [.declaration ⟨"top", "var(--x)"⟩]
    let first : Rule := .root [.declaration ⟨"--x", "1px"⟩]
    let last : Rule := .root [.declaration ⟨"--x", "2px"⟩]
    ([first, last, use].Perm [use, first, last] ∧
        [first, last, use].filter Rule.isRoot = [use, first, last].filter Rule.isRoot) ∧
      (Sheet.transform { preserve := false } [use, first, last]).sheet.text =
        "a" ++ inBraces "top:2px" ∧
      (Sheet.transform { preserve := false } [first, last, use]).sheet.text =
        "a" ++ inBraces "top:2px" := by
  intro use first last
  have hp : [first, last, use].Perm [use, first, last] := by decide +kernel
  have hr : [first, last, use].filter Rule.isRoot = [use, first, last].filter Rule.isRoot := by
    decide +kernel
  obtain ⟨-, ht, ht', -, -⟩ := transform_reordered hp hr { preserve := false }
  exact ⟨⟨hp, hr⟩, ht.trans (by decide +kernel), ht'.trans (by decide +kernel)⟩

end CustomProperties
