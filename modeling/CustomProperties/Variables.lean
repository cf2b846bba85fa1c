import CustomProperties.Bindings
import CustomProperties.Sheet.Basic

/-! # Collected variables

The definitions in the root rules of a sheet, later ones over earlier ones, and the overrides over
all of them. Only style rules at the top level whose one selector is the root count. The
definitions are taken out of the sheet unless they are to be preserved, and then the overrides are
added to them.
-/

namespace CustomProperties

/-- A name with exactly two hyphens in front. -/
def normalizeName (name : Text) : Text := "--" ++ name.dropWhile (· == '-')

/-- Bindings and a sheet that belong together. -/
structure Collected where
  bindings : Bindings
  sheet : Sheet

namespace Body

/-- Take an entry over into the bindings if it is a definition, and note its position. -/
def consumeEntry (acc : Bindings × List Nat) (e : Entry × Nat) : Bindings × List Nat :=
  match e with
  | (.declaration d, i) =>
    if d.isDefinition then (acc.1.insert d.property d.value, acc.2 ++ [i]) else acc
  | (.comment _, _) => acc

/-- The bindings with the definitions of a body, and the positions of these. -/
def consume (b : Bindings) (body : Body) : Bindings × List Nat :=
  body.zipIdx.foldl consumeEntry (b, [])

/-- Delete the entries at rising positions, the last one first so that the others keep theirs. -/
def eraseAll (positions : List Nat) (body : Body) : Body :=
  positions.foldr (fun i body => body.eraseIdx i) body

end Body

/-- Collect the definitions of a root rule. -/
def Rule.collect (preserve : Bool) : Rule → StateM Bindings Rule
  | style selectors body => fun b =>
    if selectors = [rootSelector] then
      let (b, consumed) := Body.consume b body
      (style selectors (if preserve then body else Body.eraseAll consumed body), b)
    else (style selectors body, b)
  | r => return r

/-- Bind an override, and add it to the body of the override rule. -/
def collectOverride (acc : Bindings × Body) (override : Text × Text) : Bindings × Body :=
  let name := normalizeName override.1
  (acc.1.insert name override.2, acc.2 ++ [.declaration ⟨name, override.2⟩])

def Sheet.collect (s : Sheet) (overrides : Bindings) (preserve : Bool) : Collected :=
  let (rules, b) := (s.mapM (Rule.collect preserve)).run .empty
  if overrides.isEmpty then ⟨b, rules⟩
  else
    let (b, body) := overrides.entries.foldl collectOverride (b, [])
    ⟨b, if preserve then rules ++ [.root body] else rules⟩

/-! ### What is collected, without the pass over the sheet -/

namespace Rule

/-- The definitions of a root rule. -/
def definitions (r : Rule) : List Declaration :=
  if r.isRoot then r.body.declarations.filter Declaration.isDefinition else []

/-- A root rule without its definitions; any other rule as it is. -/
def dropDefinitions : Rule → Rule
  | style selectors body =>
    if selectors = [rootSelector] then style selectors (body.filter (!·.isDefinition))
    else style selectors body
  | r => r

end Rule

/-- Overrides as definitions. -/
def overrideDeclarations (overrides : Bindings) : List Declaration :=
  overrides.entries.map fun (name, value) => ⟨normalizeName name, value⟩

def overrideRule (overrides : Bindings) : Rule :=
  .root ((overrideDeclarations overrides).map .declaration)

namespace Sheet

def definitions (s : Sheet) : List Declaration := s.flatMap Rule.definitions

/-- The value of every defined name. -/
def bindings (s : Sheet) (overrides : Bindings) : Bindings :=
  .ofList ((s.definitions ++ overrideDeclarations overrides).map fun d => (d.property, d.value))

/-- The sheet after its variables have been collected. -/
def afterCollection (s : Sheet) (overrides : Bindings) (preserve : Bool) : Sheet :=
  if preserve then
    if overrides.isEmpty then s else s ++ [overrideRule overrides]
  else s.map Rule.dropDefinitions

end Sheet

end CustomProperties
