import CustomProperties.Proofs.Variables.LastWrite
import Mathlib.Data.List.Forall2

/-! # The effect of collecting

Collecting gives the same bindings whether or not it preserves the definitions. It takes the
definitions out of the root rules, or it adds a root rule with the overrides, and leaves all other
entries and all other rules as they are.
-/

namespace CustomProperties

theorem Body.not_isDefinition_of_mem {body : Body} {d : Declaration}
    (h : d ∈ declarations (body.filter (!·.isDefinition))) : ¬d.isDefinition = true := by
  obtain ⟨e, he, hd⟩ := List.mem_filterMap.mp h
  cases e with
  | declaration d' =>
    obtain rfl := Option.some.inj hd
    exact Bool.eq_false_iff.mp (Bool.not_eq_true' _ |>.mp (List.mem_filter.mp he).2)
  | comment text => contradiction

namespace Rule

/-- A root rule has lost its definitions and nothing else; any other rule is as it was. -/
structure Stripped (r r' : Rule) : Prop where
  root : r.isRoot = true → r' = .root (r.body.filter (!·.isDefinition))
  other : r.isRoot = false → r' = r

variable {r r' : Rule}

theorem eq_root_of_isRoot (h : r.isRoot = true) : r = root r.body := by
  cases r with
  | style selectors body =>
    obtain rfl := eq_of_beq h
    rfl
  | _ => contradiction

theorem dropDefinitions_of_not_isRoot (h : r.isRoot = false) : r.dropDefinitions = r := by
  cases r with
  | style selectors body => exact if_neg (beq_eq_false_iff_ne.mp h)
  | _ => rfl

theorem stripped_dropDefinitions (r : Rule) : r.Stripped r.dropDefinitions where
  root h := by
    conv_lhs => rw [eq_root_of_isRoot h]
    exact dropDefinitions_root r.body
  other := dropDefinitions_of_not_isRoot

theorem Stripped.definitions (h : r.Stripped r') : r'.definitions = [] := by
  cases hr : r.isRoot with
  | true =>
    have hd : (Rule.root (r.body.filter (!·.isDefinition))).definitions = [] :=
      List.filter_eq_nil_iff.mpr fun _ => Body.not_isDefinition_of_mem
    rwa [← h.root hr] at hd
  | false =>
    obtain rfl := h.other hr
    exact definitions_of_not_isRoot hr

end Rule

namespace Sheet

theorem collect_bindings (s : Sheet) (overrides : Bindings) (preserve : Bool) :
    (s.collect overrides preserve).bindings = s.bindings overrides :=
  congrArg Collected.bindings (s.collect_eq overrides preserve)

theorem forall₂_stripped_collect (s : Sheet) (overrides : Bindings) :
    List.Forall₂ Rule.Stripped s (s.collect overrides false).sheet := by
  have hs : (s.collect overrides false).sheet = s.map Rule.dropDefinitions :=
    congrArg Collected.sheet (s.collect_eq overrides false)
  rw [hs, List.forall₂_map_right_iff, List.forall₂_same]
  exact fun r _ => r.stripped_dropDefinitions

theorem collect_sheet_of_preserve (s : Sheet) (overrides : Bindings) :
    (s.collect overrides true).sheet =
      if overrides.isEmpty then s
      else s ++ [.root (overrides.entries.map fun e => .declaration ⟨normalizeName e.1, e.2⟩)] := by
  have hr : overrideRule overrides =
      .root (overrides.entries.map fun e => .declaration ⟨normalizeName e.1, e.2⟩) := by
    rw [overrideRule, overrideDeclarations, List.map_map]
    rfl
  rw [← hr]
  exact congrArg Collected.sheet (s.collect_eq overrides true)

theorem definitions_collect (s : Sheet) (overrides : Bindings) :
    definitions (s.collect overrides false).sheet = [] := by
  have h := s.forall₂_stripped_collect overrides
  generalize (s.collect overrides false).sheet = s' at h
  induction h with
  | nil => rfl
  | cons hr _ ih => rw [definitions, List.flatMap_cons, hr.definitions, List.nil_append]; exact ih

theorem mem_names_bindings {s : Sheet} {overrides : Bindings} {name : Text} :
    name ∈ (s.bindings overrides).names ↔
      (∃ e ∈ overrides.entries, normalizeName e.1 = name) ∨
        ∃ d ∈ s.definitions, d.property = name := by
  rw [bindings, Bindings.mem_names_ofList, List.map_map, List.map_append, List.mem_append, or_comm,
    overrideDeclarations, List.map_map, List.mem_map, List.mem_map]
  rfl

/-- A name that is collected has the value of its last override, or else of its last definition in a
root rule. If the definitions are not preserved they are deleted, and if they are preserved the
overrides are added after them. -/
theorem collect_reads_and_removes (s : Sheet) (overrides : Bindings) :
    (s.collect overrides false).bindings = (s.collect overrides true).bindings ∧
    (∀ preserve name, (s.collect overrides preserve).bindings.find? name =
      (lastValue? name (normalized overrides.entries)).or
        (lastValue? name (s.definitions.map Declaration.binding))) ∧
    (∀ preserve name, name ∈ (s.collect overrides preserve).bindings.names ↔
      (∃ e ∈ overrides.entries, normalizeName e.1 = name) ∨
        ∃ d ∈ s.definitions, d.property = name) ∧
    List.Forall₂ Rule.Stripped s (s.collect overrides false).sheet ∧
    (s.collect overrides true).sheet =
      if overrides.isEmpty then s
      else s ++ [.root (overrides.entries.map fun e => .declaration ⟨normalizeName e.1, e.2⟩)] := by
  refine ⟨?_, ?_, ?_, s.forall₂_stripped_collect overrides, s.collect_sheet_of_preserve overrides⟩
  · rw [collect_bindings, collect_bindings]
  · intro preserve name
    rw [collect_bindings]
    exact s.find?_bindings overrides name
  · intro preserve name
    rw [collect_bindings]
    exact mem_names_bindings

/-- A name that is defined twice keeps the place of its first definition, and two overrides of one
name are both added. -/
example :
    let a : Entry := .declaration ⟨"--a", "1px"⟩
    let color : Entry := .declaration ⟨"color", "var(--a)"⟩
    let s : Sheet := [.root [a, color, .comment "kept", .declaration ⟨"--b", "2px"⟩, a],
      .style [":root", "html"] [a]]
    let overrides := Bindings.ofList [("b", "3px"), ("-b", "4px")]
    let added : List Entry := [.declaration ⟨"--b", "3px"⟩, .declaration ⟨"--b", "4px"⟩]
    (s.collect overrides true).bindings = .ofList [("--a", "1px"), ("--b", "4px")] ∧
      (s.collect overrides true).sheet = s ++ [.root added] ∧
      (s.collect overrides false).sheet =
        [.root [color, .comment "kept"], .style [":root", "html"] [a]] := by
  decide +kernel

end Sheet

end CustomProperties
