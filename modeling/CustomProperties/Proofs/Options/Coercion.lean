import CustomProperties.Options.Config
import CustomProperties.Proofs.Variables.LastWrite

/-! # Ways of giving options

Options are given as a mapping, as options that have been validated before, or as a configuration.
Validated options are settings that are read as they are, so changes may be made to a mapping or
to the options that it gives. A configuration reads the options of a transform as they are read
from a mapping, and reports the same issues with them.
-/

namespace CustomProperties

variable {settings settings' changes : List (Text × Setting)} {name : Text} {α : Type}
  {default : α} {read : Setting → Except Mismatch α} {issue : Issue}

/-! ### Settings that give options -/

namespace Options

variable {o : Options}

theorem lookup_updated (settings changes : List (Text × Setting)) (name : Text) :
    (updated settings changes).lookup name =
      (changes.reverse.lookup name).or (settings.lookup name) := by
  induction changes generalizing settings with
  | nil => rfl
  | cons c changes ih =>
    obtain ⟨key, s⟩ := c
    have hu : updated settings ((key, s) :: changes) =
        updated (Entries.put key s settings) changes := rfl
    have hc : [(key, s)].lookup name = if name = key then some s else none := by
      rw [List.lookup_cons]
      by_cases h : name = key
      · simp [h]
      · simp [h, beq_eq_false_iff_ne.mpr h]
    rw [hu, ih, Entries.lookup_put, List.reverse_cons, List.lookup_append, Option.or_assoc, hc]
    split <;> rfl

theorem optionOr_updated_congr
    (h : optionOr settings name default read = optionOr settings' name default read)
    (changes : List (Text × Setting)) :
    optionOr (updated settings changes) name default read =
      optionOr (updated settings' changes) name default read := by
  unfold optionOr at h ⊢
  rw [lookup_updated, lookup_updated]
  cases changes.reverse.lookup name with
  | some s => rfl
  | none => exact h

/-- The settings are valid, and these are the options that they give. -/
structure GivenBy (settings : List (Text × Setting)) (o : Options) : Prop where
  onlyVariables : optionOr settings "only_variables" true Setting.toBool = .ok o.onlyVariables
  preserve : optionOr settings "preserve_originals" true Setting.toBool = .ok o.preserve
  overrides : optionOr settings "override_variables" .empty Setting.toBindings = .ok o.overrides
  fixNestedCalc : optionOr settings "fix_nested_calc" true Setting.toBool = .ok o.fixNestedCalc
  handler : optionOr settings "on_warning" none Setting.toHandler = .ok o.handler

theorem ofSettings_eq_ok_iff : ofSettings settings = .ok o ↔ GivenBy settings o := by
  constructor
  · intro h
    unfold ofSettings at h
    dsimp only at h
    split at h
    next ho hp hv hf hh =>
      cases h
      exact ⟨ho, hp, hv, hf, hh⟩
    next => contradiction
  · rintro ⟨ho, hp, hv, hf, hh⟩
    simp only [ofSettings, ho, hp, hv, hf, hh]

theorem toBindings_entries (b : Bindings) :
    Setting.toBindings (.value (.object (b.entries.map (Prod.map id .string)))) = .ok b := by
  have he : (b.entries.map (Prod.map id Json.string)).map (Prod.map id Json.plainText) =
      b.entries := by
    have hf : Prod.map id Json.plainText ∘ Prod.map id Json.string = (id : Text × Text → _) := rfl
    rw [List.map_map, hf, List.map_id]
  have ht : (b.entries.map (Prod.map id Json.string)).all (fun e => e.2.hasText) = true :=
    List.all_eq_true.mpr fun e hm => by
      obtain ⟨_, -, rfl⟩ := List.mem_map.mp hm
      simp [Json.hasText]
  exact (if_pos ht).trans
    (congrArg Except.ok ((congrArg Bindings.ofList he).trans (Bindings.ofList_entries b)))

theorem givenBy_settings (o : Options) : GivenBy o.settings o := by
  constructor
  · rfl
  · rfl
  · have hl : o.settings.lookup ("override_variables" : Text) =
        some (Setting.value (.object (o.overrides.entries.map (Prod.map id .string)))) := rfl
    rw [optionOr, hl]
    simp only [toBindings_entries, Except.mapError]
  · rfl
  · have hl : o.settings.lookup ("on_warning" : Text) =
        some (o.handler.elim (Setting.value .null) fun h => .handler h) := rfl
    rw [optionOr, hl]
    cases o.handler <;> rfl

theorem GivenBy.coerce_eq (h : GivenBy settings o) (h' : GivenBy settings' o)
    (changes : List (Text × Setting)) : coerce settings changes = coerce settings' changes := by
  unfold coerce ofSettings
  rw [optionOr_updated_congr (h.onlyVariables.trans h'.onlyVariables.symm),
    optionOr_updated_congr (h.preserve.trans h'.preserve.symm),
    optionOr_updated_congr (h.overrides.trans h'.overrides.symm),
    optionOr_updated_congr (h.fixNestedCalc.trans h'.fixNestedCalc.symm),
    optionOr_updated_congr (h.handler.trans h'.handler.symm)]

/-- It does not matter whether changes are made to settings or to the options that they give. -/
theorem GivenBy.change_eq (h : GivenBy settings o) (changes : List (Text × Setting)) :
    o.change changes = coerce settings changes := by
  unfold change
  split
  next he =>
    rw [List.isEmpty_iff] at he
    subst he
    exact (ofSettings_eq_ok_iff.mpr h).symm
  next => exact (givenBy_settings o).coerce_eq h changes

theorem issues_ofSettings (settings : List (Text × Setting)) :
    issues (ofSettings settings) =
      issues (optionOr settings "only_variables" true Setting.toBool) ++
        issues (optionOr settings "preserve_originals" true Setting.toBool) ++
        issues (optionOr settings "override_variables" .empty Setting.toBindings) ++
        issues (optionOr settings "fix_nested_calc" true Setting.toBool) ++
        issues (optionOr settings "on_warning" none Setting.toHandler) := by
  unfold ofSettings
  dsimp only
  split
  next ho hp hv hf hh => simp only [ho, hp, hv, hf, hh, issues, List.append_nil]
  next => rfl

end Options

/-! ### Configurations -/

theorem place_of_mem_issues_optionOr (h : issue ∈ issues (optionOr settings name default read)) :
    issue.place = [.key name] := by
  unfold optionOr at h
  split at h
  next => contradiction
  next s _ =>
    cases hr : read s with
    | ok a => simp [hr, Except.mapError, issues] at h
    | error m =>
      simp only [hr, Except.mapError, issues, List.mem_singleton] at h
      rw [h]

namespace Config

variable {c : Config}

/-- The options that a configuration has in common with those of a transform. -/
def sharedNames : List Text :=
  ["only_variables", "preserve_originals", "override_variables", "fix_nested_calc"]

theorem givenBy_of_ofSettings (hw : settings.lookup ("on_warning" : Text) = none)
    (h : ofSettings settings = .ok c) : Options.GivenBy settings c.toOptions := by
  unfold ofSettings at h
  dsimp only at h
  split at h
  next ho hp hf hv hs hr =>
    cases h
    refine ⟨ho, hp, hv, hf, ?_⟩
    rw [optionOr, hw]
    rfl
  next => contradiction

theorem place_of_mem_issues_toSources {s : Setting} (h : issue ∈ issues (toSources s)) :
    issue.place.head? = some (.key "sources") := by
  unfold toSources at h
  split at h
  next =>
    split at h
    next => contradiction
    next =>
      obtain ⟨e, -, rfl⟩ := List.mem_map.mp h
      rfl
  next => rw [List.mem_singleton.mp h]; rfl

theorem issues_ofSettings (settings : List (Text × Setting)) :
    issues (ofSettings settings) =
      issues (optionOr settings "only_variables" true Setting.toBool) ++
        issues (optionOr settings "preserve_originals" true Setting.toBool) ++
        issues (optionOr settings "fix_nested_calc" true Setting.toBool) ++
        issues (optionOr settings "override_variables" .empty Setting.toBindings) ++
        issues (optionOr settings "silent" false Setting.toBool) ++
        issues ((settings.lookup ("sources" : Text)).elim (.ok []) toSources) := by
  unfold ofSettings
  dsimp only
  split
  next ho hp hf hv hs hr => simp only [ho, hp, hf, hv, hs, hr, issues, List.append_nil]
  next => rfl

/-- The issues with the options are those of a transform, and no others are found in their
places. -/
theorem mem_issues_ofSettings_iff (hw : settings.lookup ("on_warning" : Text) = none)
    (hn : name ∈ sharedNames) (hp : issue.place = [.key name]) :
    issue ∈ issues (ofSettings settings) ↔ issue ∈ issues (Options.ofSettings settings) := by
  have hh : issues (optionOr settings "on_warning" none Setting.toHandler) = [] := by
    rw [optionOr, hw]
    rfl
  have hs : issue ∉ issues (optionOr settings "silent" false Setting.toBool) := by
    intro hm
    have he := hp.symm.trans (place_of_mem_issues_optionOr hm)
    simp only [List.cons.injEq, and_true, Step.key.injEq] at he
    subst he
    exact absurd hn (by decide)
  have hr : issue ∉ issues ((settings.lookup ("sources" : Text)).elim (.ok []) toSources) := by
    intro hm
    cases hl : settings.lookup ("sources" : Text) with
    | none =>
      rw [hl] at hm
      exact absurd hm List.not_mem_nil
    | some v =>
      rw [hl] at hm
      have he := place_of_mem_issues_toSources hm
      rw [hp] at he
      simp only [List.head?_cons, Option.some.injEq, Step.key.injEq] at he
      subst he
      exact absurd hn (by decide)
  rw [issues_ofSettings, Options.issues_ofSettings, hh]
  simp only [List.mem_append, hs, hr, List.append_nil, or_false]
  exact or_right_comm

end Config

/-- Changes may be made to a mapping or to the options that it gives. A configuration gives the
options that its members give as a mapping, and options that are validated again are the same. What
a configuration reports for an option is what the mapping has reported for it. -/
theorem coerced_options_agree :
    (∀ (settings changes : List (Text × Setting)) (o : Options),
      Options.coerce settings [] = .ok o → o.change changes = Options.coerce settings changes) ∧
    (∀ settings : List (Text × Setting), settings.lookup ("on_warning" : Text) = none →
      (∀ c, Config.ofSettings settings = .ok c →
        Options.coerce settings [] = .ok c.toOptions ∧
          Options.coerce c.toOptions.settings [] = .ok c.toOptions) ∧
      ∀ name ∈ Config.sharedNames, ∀ mismatch,
        ⟨[.key name], mismatch⟩ ∈ issues (Config.ofSettings settings) ↔
          ⟨[.key name], mismatch⟩ ∈ issues (Options.coerce settings [])) ∧
    ∀ members : List (Text × Json),
      Config.ofJson (.object members) = Config.ofSettings (Config.given members) := by
  refine ⟨?_, ?_, fun _ => rfl⟩
  · intro settings changes o h
    exact (Options.ofSettings_eq_ok_iff.mp h).change_eq changes
  · intro settings hw
    constructor
    · intro c h
      constructor
      · exact Options.ofSettings_eq_ok_iff.mpr (Config.givenBy_of_ofSettings hw h)
      · exact Options.ofSettings_eq_ok_iff.mpr (Options.givenBy_settings c.toOptions)
    · intro name hn mismatch
      exact Config.mem_issues_ofSettings_iff hw hn rfl

/-- Words and numbers for truth values, two keys with one text, a handler that is kept, and a change
that does not fit. -/
theorem coerced_options_agree_on_words :
    let settings : List (Text × Setting) := [("only_variables", .value (.string "No")),
      ("override_variables", .mapping [(.int 1, .int 2), (.string "1", .int 3)]),
      ("on_warning", .handler ⟨7⟩)]
    let changes : List (Text × Setting) := [("preserve_originals", .value (.string "maybe")),
      ("override_variables", .value .null)]
    let o : Options :=
      { onlyVariables := false, overrides := .ofList [("1", "3")], handler := some ⟨7⟩ }
    let members : List (Text × Json) := [("fix_nested_calc", .int 0),
      ("override_variables", .object [("size", .int 2)]), ("sources", .array [.string "styles"])]
    let c : Config :=
      { fixNestedCalc := false, overrides := .ofList [("size", "2")], sources := ["styles"] }
    (Options.coerce settings [] = .ok o ∧ (Config.given members).lookup ("on_warning" : Text) = none ∧
      Config.ofSettings (Config.given members) = .ok c ∧
      ("fix_nested_calc" : Text) ∈ Config.sharedNames) ∧
    o.change changes = Options.coerce settings changes ∧
    Options.coerce settings changes = .error [⟨[.key "preserve_originals"], .unreadableBool⟩,
      ⟨[.key "override_variables"], .notMapping⟩] ∧
    Options.coerce (Config.given members) [] = .ok c.toOptions ∧
    Config.ofJson (.object members) = .ok c ∧
    ∀ mismatch, ⟨[.key "fix_nested_calc"], mismatch⟩ ∈ issues (Config.ofJson (.object members)) ↔
      ⟨[.key "fix_nested_calc"], mismatch⟩ ∈ issues (Options.coerce (Config.given members) []) := by
  intro settings changes o members c
  have hs : Options.coerce settings [] = .ok o := by decide +kernel
  have hw : (Config.given members).lookup ("on_warning" : Text) = none := by decide +kernel
  have hc : Config.ofSettings (Config.given members) = .ok c := by decide +kernel
  have hn : ("fix_nested_calc" : Text) ∈ Config.sharedNames := by decide
  obtain ⟨hm, hj, ho⟩ := coerced_options_agree
  refine ⟨⟨hs, hw, hc, hn⟩, hm settings changes o hs, ?_, ((hj _ hw).1 c hc).1,
    (ho members).trans hc, (hj _ hw).2 _ hn⟩
  decide +kernel

end CustomProperties
