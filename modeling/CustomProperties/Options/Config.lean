import CustomProperties.Options.Basic

/-! # Configurations

A configuration is a JSON object with the options of a transform and what the command line needs
besides them.
-/

namespace CustomProperties

structure Config where
  onlyVariables : Bool := true
  preserve : Bool := true
  fixNestedCalc : Bool := true
  overrides : Bindings := .empty
  silent : Bool := false
  sources : List Text := []
  deriving DecidableEq

namespace Config

def toSources : Setting → Except (List Issue) (List Text)
  | .value (.array items) =>
    match Setting.stringsFrom 0 items with
    | (texts, []) => .ok texts
    | (_, es) => .error (es.map fun (i, m) => ⟨[.key "sources", .index i], m⟩)
  | _ => .error [⟨[.key "sources"], .notList⟩]

/-- The configuration that settings give. -/
def ofSettings (settings : List (Text × Setting)) : Except (List Issue) Config :=
  let only := optionOr settings "only_variables" true Setting.toBool
  let preserve := optionOr settings "preserve_originals" true Setting.toBool
  let fix := optionOr settings "fix_nested_calc" true Setting.toBool
  let overrides := optionOr settings "override_variables" .empty Setting.toBindings
  let silent := optionOr settings "silent" false Setting.toBool
  let sources := (settings.lookup ("sources" : Text)).elim (.ok []) toSources
  match only, preserve, fix, overrides, silent, sources with
  | .ok only, .ok preserve, .ok fix, .ok overrides, .ok silent, .ok sources =>
    .ok ⟨only, preserve, fix, overrides, silent, sources⟩
  | only, preserve, fix, overrides, silent, sources =>
    .error (issues only ++ issues preserve ++ issues fix ++ issues overrides ++ issues silent ++
      issues sources)

/-- The members of a configuration as settings. -/
def given (members : List (Text × Json)) : List (Text × Setting) :=
  members.map fun (name, v) => (name, .value v)

def ofJson : Json → Except (List Issue) Config
  | .object members => ofSettings (given members)
  | _ => .error [⟨[], .notObject⟩]

def toOptions (c : Config) : Options :=
  { onlyVariables := c.onlyVariables, preserve := c.preserve,
    overrides := c.overrides, fixNestedCalc := c.fixNestedCalc }

end Config

end CustomProperties
