import CustomProperties.Json.Write
import CustomProperties.Log
import CustomProperties.Sheet.Read
import CustomProperties.Text.Order
import CustomProperties.Text.Word
import CustomProperties.Variables

/-! # Reports

A report lists the variables that a sheet defines, the names that it refers to, and which of those
it does not define.
-/

namespace CustomProperties

structure Report where
  bindings : Bindings
  references : List Text
  undefinedNames : List Text
  deriving DecidableEq

namespace Report

def isNameChar (c : Char) : Bool := Text.isWord c || c == '-'

/-- The name of a custom property in a reference that a text starts with, and the text after it. -/
def reference? (t : Text) : Option (Text × Text) :=
  match Text.dropPrefix? Reference.opening t with
  | none => none
  | some body =>
    match Text.dropPrefix? "--" (Text.stripLeft body) with
    | none => none
    | some rest =>
      if rest.takeWhile isNameChar = [] then none
      else some ("--" ++ rest.takeWhile isNameChar, rest.dropWhile isNameChar)

theorem length_reference? {t name rest : Text} (h : reference? t = some (name, rest)) :
    rest.length < t.length := by
  unfold reference? at h
  split at h
  · contradiction
  · next body hb =>
    split at h
    · contradiction
    · next r hr =>
      split at h
      · contradiction
      · cases h
        have h₁ := congrArg List.length (Text.dropPrefix?_eq_some.mp hb)
        have h₂ := congrArg List.length (Text.dropPrefix?_eq_some.mp hr)
        have h₃ : (Text.stripLeft body).length ≤ body.length := (List.dropWhile_sublist _).length_le
        have h₄ := (List.dropWhile_sublist isNameChar (l := r)).length_le
        have ho : Reference.opening.length = 4 := rfl
        simp only [List.length_append] at h₁ h₂
        omega

/-- The names in the references of a value, from left to right. -/
def namesIn (t : Text) : List Text :=
  match _ : reference? t with
  | some (name, rest) => name :: namesIn rest
  | none =>
    match t with
    | [] => []
    | _ :: t => namesIn t
termination_by t.length
decreasing_by
  · exact length_reference? ‹_›
  · simp

def ofSheet (s : Sheet) : Report :=
  let b := (s.collect .empty true).bindings
  let names := Text.sortedSet (s.declarations.flatMap fun d => namesIn d.value)
  ⟨b, names, names.filter fun n => !b.contains n⟩

/-- The report on sheets that are read as one, whose integers may have any number of digits. -/
def ofChunks (chunks : List Text) : Traced (Except ParseError Report) :=
  match Sheet.read chunks.flatten with
  | .error e => ⟨.error e, []⟩
  | .ok s =>
    let r := ofSheet s
    let missing := r.undefinedNames.length
    ⟨.ok r, [.parsed s.length, .collected r.bindings.size] ++
      if missing = 0 then [] else [.undefinedFound missing]⟩

/-- The report on sheets that are read as one, if their integers are read. -/
def ofChunksLimited (chunks : List Text) : Traced (Except Sheet.Unread Report) :=
  match Sheet.longNumber? chunks.flatten with
  | some number => ⟨.error (.number number), []⟩
  | none => ⟨(ofChunks chunks).result.mapError .reported, (ofChunks chunks).events⟩

def toJson (r : Report) : Json :=
  let texts (ts : List Text) : Json := .array (ts.map .string)
  .object [("variables", .object (r.bindings.entries.map fun (n, v) => (n, .string v))),
    ("references", texts r.references), ("undefined", texts r.undefinedNames)]

def write (layout : Json.Layout) (r : Report) : Text := r.toJson.write layout

end Report

end CustomProperties
