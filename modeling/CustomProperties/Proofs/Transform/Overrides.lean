import CustomProperties.Proofs.Sheet.Concatenation
import CustomProperties.Proofs.Transform.Pruning

/-! # Overrides and the root rule

A root rule at the end of a sheet that declares the overrides does what the overrides do. Pruning
keeps it, since it holds definitions only, unless it is empty. When definitions are not preserved
it ends up empty, and an empty rule is neither resolved nor written.
-/

namespace CustomProperties

theorem normalizeName_isDefinition (name value : Text) :
    Declaration.isDefinition ⟨normalizeName name, value⟩ = true := by
  simp [Declaration.isDefinition, normalizeName, Text.dropPrefix?]

variable {overrides : Bindings} {o : Options}

theorem isDefinition_of_mem_overrideDeclarations {d : Declaration}
    (h : d ∈ overrideDeclarations overrides) : d.isDefinition = true := by
  obtain ⟨⟨name, value⟩, -, rfl⟩ := List.mem_map.mp h
  exact normalizeName_isDefinition name value

theorem declarations_overrideRule (overrides : Bindings) :
    (overrideRule overrides).declarations = overrideDeclarations overrides := by
  rw [overrideRule, Rule.root, Rule.declarations, Rule.owners, List.flatMap_singleton, Rule.body,
    Body.declarations, List.filterMap_map]
  exact List.filterMap_some

theorem definitions_overrideRule (overrides : Bindings) :
    (overrideRule overrides).definitions = overrideDeclarations overrides := by
  have hd : (overrideRule overrides).definitions =
      (overrideRule overrides).declarations.filter Declaration.isDefinition := by
    simp [Rule.definitions, Rule.declarations, overrideRule, Rule.root, Rule.isRoot, Rule.owners,
      Rule.body]
  rw [hd, declarations_overrideRule, List.filter_eq_self]
  exact fun d h => isDefinition_of_mem_overrideDeclarations h

theorem dropDefinitions_overrideRule (overrides : Bindings) :
    (overrideRule overrides).dropDefinitions = .root [] := by
  have hb : ((overrideDeclarations overrides).map Entry.declaration).filter (!·.isDefinition) = [] := by
    rw [List.filter_eq_nil_iff]
    intro e he
    obtain ⟨d, hd, rfl⟩ := List.mem_map.mp he
    simp [Entry.isDefinition, Entry.declaration?, isDefinition_of_mem_overrideDeclarations hd]
  rw [overrideRule, Rule.dropDefinitions_root, hb]

theorem prune_overrideRule (overrides : Bindings) :
    (overrideRule overrides).prune = if overrides.isEmpty then none else some (overrideRule overrides) := by
  have hr : ∀ e ∈ (overrideDeclarations overrides).map Entry.declaration, e.isRelated = true := by
    intro e he
    obtain ⟨d, hd, rfl⟩ := List.mem_map.mp he
    simp [Entry.isRelated, Entry.isDefinition, Entry.declaration?,
      isDefinition_of_mem_overrideDeclarations hd]
  rw [overrideRule, Rule.root, Rule.prune, Body.related, List.filter_eq_self.mpr hr, Body.anyRelated]
  cases he : overrides.entries with
  | nil => simp [overrideDeclarations, Bindings.isEmpty, he]
  | cons e es => simp_all [overrideDeclarations, Bindings.isEmpty]

theorem overrideRule_of_isEmpty (h : overrides.isEmpty = true) :
    overrideRule overrides = .root [] := by
  have he : overrides.entries = [] := List.isEmpty_iff.mp h
  simp [overrideRule, overrideDeclarations, he]

namespace Sheet

/-- Nothing, or an empty rule: there is nothing to resolve or to write. -/
def Silent (s : Sheet) : Prop := s = [] ∨ s = [.root []]

theorem Silent.declarations {s : Sheet} (h : s.Silent) : s.declarations = [] := by
  rcases h with rfl | rfl <;> rfl

theorem Silent.mapBodies {s : Sheet} (h : s.Silent) (o : Options) (b : Bindings) :
    (s.mapBodies (Body.resolved o b)).Silent := by
  rcases h with rfl | rfl
  · exact .inl rfl
  · exact .inr rfl

theorem Silent.text_append {t : Sheet} (h : t.Silent) (s : Sheet) : text (s ++ t) = s.text := by
  have ht : t.text = [] := by rcases h with rfl | rfl <;> rfl
  rw [Sheet.text_append, ht, List.append_nil]

theorem Silent.write_append {t : Sheet} (h : t.Silent) (s : Sheet) : write (s ++ t) = s.write := by
  have hk : Rule.anyStrayKeyframe t = false := by rcases h with rfl | rfl <;> rfl
  have hs : Rule.anyStrayKeyframe (s ++ t) = Rule.anyStrayKeyframe s := by
    rw [Rule.anyStrayKeyframe_eq, List.any_append, ← Rule.anyStrayKeyframe_eq,
      ← Rule.anyStrayKeyframe_eq, hk, Bool.or_false]
  rw [write, write, hs, h.text_append]

theorem pruned_overrideRule (o : Options) :
    pruned o [overrideRule o.overrides] =
      if o.onlyVariables && o.overrides.isEmpty then [] else [overrideRule o.overrides] := by
  unfold pruned
  cases o.onlyVariables with
  | false => rfl
  | true =>
    rw [if_pos rfl, prune, List.filterMap_cons, prune_overrideRule]
    cases o.overrides.isEmpty <;> rfl

/-- Collecting from a sheet with the override rule leaves what collecting from the sheet with the
overrides leaves, and perhaps an empty rule. -/
theorem visited_append_overrideRule (o : Options) (s : Sheet) :
    ∃ rest : Sheet, rest.Silent ∧
      visited { o with overrides := .empty } (s ++ [overrideRule o.overrides]) =
        s.visited o ++ rest := by
  have hp : pruned { o with overrides := .empty } (s ++ [overrideRule o.overrides]) =
      s.pruned o ++ pruned o [overrideRule o.overrides] := pruned_append o s _
  rw [visited, hp, pruned_overrideRule, visited, afterCollection, afterCollection]
  cases o.preserve with
  | true =>
    cases he : o.overrides.isEmpty with
    | true =>
      rw [overrideRule_of_isEmpty he]
      cases o.onlyVariables with
      | true => exact ⟨[], .inl rfl, rfl⟩
      | false => exact ⟨[.root []], .inr rfl, rfl⟩
    | false =>
      refine ⟨[], .inl rfl, ?_⟩
      rw [Bool.and_false, List.append_nil]
      rfl
  | false =>
    cases o.onlyVariables && o.overrides.isEmpty with
    | true => exact ⟨[], .inl rfl, List.map_append⟩
    | false =>
      refine ⟨[.root []], .inr rfl, ?_⟩
      rw [← dropDefinitions_overrideRule o.overrides]
      exact List.map_append

theorem bindings_append_overrideRule (o : Options) (s : Sheet) :
    (pruned { o with overrides := .empty } (s ++ [overrideRule o.overrides])).bindings .empty =
      (s.pruned o).bindings o.overrides := by
  have hr : definitions [overrideRule o.overrides] = overrideDeclarations o.overrides := by
    rw [definitions, List.flatMap_singleton, definitions_overrideRule]
  change (pruned o (s ++ [overrideRule o.overrides])).bindings .empty = _
  rw [bindings, bindings, definitions_pruned, definitions_pruned, definitions_append, hr]
  exact congrArg (fun ds => Bindings.ofList (List.map _ ds)) (List.append_nil _)

end Sheet

/-- Overrides do what a root rule does that declares them at the end of the sheet. -/
theorem transform_overrides_as_root_rule (o : Options) (s : Sheet) :
    let overriding := s.transform o
    let declaring := Sheet.transform { o with overrides := .empty } (s ++ [overrideRule o.overrides])
    overriding.sheet.text = declaring.sheet.text ∧
      overriding.sheet.write = declaring.sheet.write ∧
      overriding.bindings = declaring.bindings ∧
      overriding.warnings = declaring.warnings := by
  intro overriding declaring
  obtain ⟨rest, hr, hv⟩ := s.visited_append_overrideRule o
  have hb := s.bindings_append_overrideRule o
  have ho : overriding = _ := s.transform_eq o
  have hd : declaring = _ := Sheet.transform_eq { o with overrides := .empty } _
  rw [hb, hv] at hd
  have hs : declaring.sheet =
      overriding.sheet ++ rest.mapBodies (Body.resolved o ((s.pruned o).bindings o.overrides)) := by
    rw [ho, hd]
    exact Sheet.mapBodies_append _ _ _
  refine ⟨?_, ?_, ?_, ?_⟩
  · rw [hs, (hr.mapBodies o _).text_append]
  · rw [hs, (hr.mapBodies o _).write_append]
  · rw [ho, hd]
  · rw [Outcome.warnings, Outcome.warnings, ho, hd]
    dsimp only
    rw [Sheet.declarations_append, hr.declarations, List.append_nil]

end CustomProperties
