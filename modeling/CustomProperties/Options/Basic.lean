import CustomProperties.Bindings
import CustomProperties.Json.Basic

/-! # Options

Options are given by name with loosely typed values. Every value that does not fit is reported,
in the order of the options, and unknown names are ignored.
-/

namespace CustomProperties

/-- A receiver of warnings. Of two of them it matters only whether they are the same one; each is
taken to return from every warning. -/
structure Handler where
  id : Nat := 0
  deriving DecidableEq, Repr

/-- The options of a transform. Warnings go to the handler if there is one, else to the log. -/
structure Options where
  onlyVariables : Bool := true
  preserve : Bool := true
  overrides : Bindings := .empty
  fixNestedCalc : Bool := true
  handler : Option Handler := none
  deriving DecidableEq

def Options.hasHandler (o : Options) : Bool := o.handler.isSome

/-- A value given for an option. The keys of a mapping need not be texts. -/
inductive Setting
  | value (value : Json)
  | mapping (members : List (Json × Json))
  | handler (handler : Handler := {})

/-- Where in a configuration a value stands. -/
inductive Step
  | key (name : Text)
  | index (index : Nat)
  deriving DecidableEq, Repr

/-- How a value does not fit. -/
inductive Mismatch
  | unreadableBool
  | notBool
  | notMapping
  | noText
  | notHandler
  | notList
  | notString
  | notObject
  deriving DecidableEq, Repr

def Mismatch.code : Mismatch → Text
  | unreadableBool => "bool_parsing"
  | notBool => "bool_type"
  | notMapping => "dict_type"
  | noText => "value_error"
  | notHandler => "callable_type"
  | notList => "list_type"
  | notString => "string_type"
  | notObject => "model_type"

/-- A value that does not fit, and where. -/
structure Issue where
  place : List Step
  mismatch : Mismatch
  deriving DecidableEq, Repr

namespace Setting

def trueWords : List Text := ["1", "on", "t", "true", "y", "yes"]

def falseWords : List Text := ["0", "off", "f", "false", "n", "no"]

def boolOfWord (word : Text) : Except Mismatch Bool :=
  if Text.lowerAscii word ∈ trueWords then .ok true
  else if Text.lowerAscii word ∈ falseWords then .ok false
  else .error .unreadableBool

/-- Integers below this limit and from its negative on fit into 64 bits with a sign. -/
def wordLimit : Int := 9223372036854775808

/-- Only zero and one denote truth values. -/
def boolOfWhole (n : Int) : Except Mismatch Bool :=
  if n = 0 then .ok false else if n = 1 then .ok true else .error .unreadableBool

/-- An integer that does not fit is no truth value at all. -/
def boolOfInt (n : Int) : Except Mismatch Bool :=
  if -wordLimit ≤ n ∧ n < wordLimit then boolOfWhole n else .error .notBool

/-- Neither is a fraction, nor a number of the size of the limit, of either sign. -/
def boolOfFloat (x : Binary64) : Except Mismatch Bool :=
  match x.toInt? with
  | some n => if -wordLimit < n ∧ n < wordLimit then boolOfWhole n else .error .notBool
  | none => .error .notBool

def toBool : Setting → Except Mismatch Bool
  | value (.bool b) => .ok b
  | value (.int n) => boolOfInt n
  | value (.float x) => boolOfFloat x
  | value (.string word) => boolOfWord word
  | _ => .error .notBool

/-- Names and values of a mapping are taken by their text, which two keys may have in common. -/
def toBindings : Setting → Except Mismatch Bindings
  | value (.object members) =>
    if members.all fun (_, v) => v.hasText then
      .ok (.ofList (members.map fun (name, v) => (name, v.plainText)))
    else .error .noText
  | mapping members =>
    if members.all fun (k, v) => k.hasText && v.hasText then
      .ok (.ofList (members.map fun (k, v) => (k.plainText, v.plainText)))
    else .error .noText
  | _ => .error .notMapping

/-- Null stands for no handler. -/
def toHandler : Setting → Except Mismatch (Option Handler)
  | handler h => .ok (some h)
  | value .null => .ok none
  | _ => .error .notHandler

/-- The elements from `index` on that are strings, and those that are not. -/
def stringsFrom (index : Nat) : List Json → List Text × List (Nat × Mismatch)
  | [] => ([], [])
  | .string t :: vs => (t :: (stringsFrom (index + 1) vs).1, (stringsFrom (index + 1) vs).2)
  | _ :: vs => ((stringsFrom (index + 1) vs).1, (index, .notString) :: (stringsFrom (index + 1) vs).2)

end Setting

/-- A named option: its value, or the default if none is given. -/
def optionOr {α : Type} (settings : List (Text × Setting)) (name : Text) (default : α)
    (read : Setting → Except Mismatch α) : Except (List Issue) α :=
  match settings.lookup name with
  | none => .ok default
  | some s => (read s).mapError fun m => [⟨[.key name], m⟩]

/-- The issues of a result. -/
def issues {α : Type} : Except (List Issue) α → List Issue
  | .ok _ => []
  | .error es => es

namespace Options

def ofSettings (settings : List (Text × Setting)) : Except (List Issue) Options :=
  let only := optionOr settings "only_variables" true Setting.toBool
  let preserve := optionOr settings "preserve_originals" true Setting.toBool
  let overrides := optionOr settings "override_variables" .empty Setting.toBindings
  let fix := optionOr settings "fix_nested_calc" true Setting.toBool
  let handler := optionOr settings "on_warning" none Setting.toHandler
  match only, preserve, overrides, fix, handler with
  | .ok only, .ok preserve, .ok overrides, .ok fix, .ok handler =>
    .ok ⟨only, preserve, overrides, fix, handler⟩
  | only, preserve, overrides, fix, handler =>
    .error (issues only ++ issues preserve ++ issues overrides ++ issues fix ++ issues handler)

/-- Options by name. -/
def settings (o : Options) : List (Text × Setting) :=
  [("only_variables", .value (.bool o.onlyVariables)),
    ("preserve_originals", .value (.bool o.preserve)),
    ("override_variables", .value (.object (o.overrides.entries.map fun (n, v) => (n, .string v)))),
    ("fix_nested_calc", .value (.bool o.fixNestedCalc)),
    ("on_warning", o.handler.elim (.value .null) fun h => .handler h)]

/-- Replace the named settings; a given mapping replaces the whole mapping. -/
def updated (settings changes : List (Text × Setting)) : List (Text × Setting) :=
  changes.foldl (fun s c => Entries.put c.1 c.2 s) settings

/-- The settings in `base`, some of them changed. -/
def coerce (base changes : List (Text × Setting)) : Except (List Issue) Options :=
  ofSettings (updated base changes)

/-- Options, some of them changed. -/
def change (o : Options) (changes : List (Text × Setting)) : Except (List Issue) Options :=
  if changes.isEmpty then .ok o else coerce o.settings changes

end Options

end CustomProperties
