import CustomProperties.Proofs.Resolution.Derivation
import CustomProperties.Proofs.Text.Occurrence
import CustomProperties.Proofs.Transform.Modes
import CustomProperties.Proofs.Transform.Overrides
import CustomProperties.Proofs.Variables.LastWrite

/-! # Static definitions

A copy of a definition defines the same name and stands right behind it. So a name that is
collected from a sheet with copies is collected where it was before, with the value of the copy.
-/

namespace CustomProperties

namespace Entries

theorem put_map {α β : Type} (f : α → β) (key : Text) (value : α) (es : List (Text × α)) :
    put key (f value) (es.map (Prod.map id f)) = (put key value es).map (Prod.map id f) := by
  induction es with
  | nil => rfl
  | cons e es ih =>
    by_cases h : e.1 = key
    · simp [put, h]
    · simp [put, h, ih]

end Entries

namespace Bindings

def mapValues (f : Text → Text) (b : Bindings) : Bindings where
  entries := b.entries.map (Prod.map id f)
  nodup := by
    have hk : (b.entries.map (Prod.map id f)).map Prod.fst = b.entries.map Prod.fst := by simp
    exact hk ▸ b.nodup

variable {f : Text → Text}

theorem names_mapValues (b : Bindings) : (b.mapValues f).names = b.names := by
  simp [names, mapValues]

theorem find?_mapValues (b : Bindings) (n : Text) : (b.mapValues f).find? n = (b.find? n).map f := by
  change (b.entries.map (Prod.map id f)).lookup n = (b.entries.lookup n).map f
  induction b.entries with
  | nil => rfl
  | cons e es ih =>
    rw [List.map_cons, List.lookup_cons, List.lookup_cons]
    by_cases h : n = e.1
    · simp [h]
    · simp [beq_eq_false_iff_ne.mpr h, ih]

theorem insert_mapValues (b : Bindings) (n v : Text) :
    (b.mapValues f).insert n (f v) = (b.insert n v).mapValues f :=
  ext (Entries.put_map f n v b.entries)

end Bindings

/-- What a value resolves to in a sheet with copies, where only a value that changes has one. -/
def staticValue (fixNestedCalc : Bool) (b : Bindings) (value : Text) : Text :=
  let resolved := (resolve b value).text
  if resolved = value then value else if fixNestedCalc then Calc.flatten resolved else resolved

variable {fix : Bool} {b : Bindings}

/-- A value without references resolves to itself, so a copy depends on the change alone. -/
theorem Declaration.copy?_eq (d : Declaration) :
    d.copy? fix b =
      if (resolve b d.value).text = d.value then none
      else some ⟨d.property, staticValue fix b d.value⟩ := by
  have hr : d.isReference = false → (resolve b d.value).text = d.value := by
    intro hn
    rw [resolve, Resolution.resolveFrom_of_none (Text.breakOn_eq_none_iff.mpr hn)]
  by_cases hv : (resolve b d.value).text = d.value
  · simp [copy?, hv]
  · have hd : d.isReference = true := by
      by_contra hn
      exact hv (hr (Bool.eq_false_iff.mpr hn))
    simp [copy?, staticValue, hd, hv]

def Declaration.withCopy (fix : Bool) (b : Bindings) (d : Declaration) : List Declaration :=
  d :: (d.copy? fix b).toList

theorem Bindings.insertAll_withCopy (acc : Bindings) (d : Declaration) :
    acc.insertAll ((d.withCopy fix b).map Declaration.binding) =
      acc.insert d.property (staticValue fix b d.value) := by
  rw [Declaration.withCopy, Declaration.copy?_eq]
  split
  next h => simp [insertAll, Declaration.binding, staticValue, h]
  next => simp [insertAll, Declaration.binding, insert_insert]

theorem Bindings.insertAll_withCopies (acc : Bindings) (ds : List Declaration) :
    (acc.mapValues (staticValue fix b)).insertAll
        ((ds.flatMap (Declaration.withCopy fix b)).map Declaration.binding) =
      (acc.insertAll (ds.map Declaration.binding)).mapValues (staticValue fix b) := by
  induction ds generalizing acc with
  | nil => rfl
  | cons d ds ih =>
    rw [List.flatMap_cons, List.map_append, insertAll_append, insertAll_withCopy, insert_mapValues, ih]
    rfl

namespace Body

theorem declarations_withCopies (body : Body) :
    (withCopies fix b body).declarations = body.declarations.flatMap (Declaration.withCopy fix b) := by
  induction body with
  | nil => rfl
  | cons e body ih =>
    rw [withCopies_cons]
    cases e with
    | comment text => exact ih
    | declaration d =>
      have hc : declarations (Entry.copy? fix b (.declaration d)).toList = (d.copy? fix b).toList := by
        change declarations ((d.copy? fix b).map Entry.declaration).toList = _
        cases d.copy? fix b <;> rfl
      change d :: declarations (_ ++ _) = d :: (_ ++ _)
      rw [declarations_append, hc, ih]
      rfl

theorem definitions_withCopies (body : Body) :
    (withCopies fix b body).definitions = body.definitions.flatMap (Declaration.withCopy fix b) := by
  rw [definitions, definitions, declarations_withCopies]
  induction body.declarations with
  | nil => rfl
  | cons d ds ih =>
    -- a copy is a definition exactly if its original is one
    have hd : (d.withCopy fix b).filter Declaration.isDefinition =
        if d.isDefinition then d.withCopy fix b else [] := by
      rw [Declaration.withCopy]
      cases hc : d.copy? fix b with
      | none => by_cases h : d.isDefinition <;> simp [h]
      | some copy =>
        have hp : copy.isDefinition = d.isDefinition := by
          rw [Declaration.isDefinition, Declaration.copy?_property hc, Declaration.isDefinition]
        by_cases h : d.isDefinition <;> simp [h, hp]
    rw [List.flatMap_cons, List.filter_append, hd, ih]
    by_cases h : d.isDefinition <;> simp [h]

end Body

theorem Rule.definitions_withCopies (r : Rule) :
    (r.mapBodies (Body.withCopies fix b)).definitions =
      r.definitions.flatMap (Declaration.withCopy fix b) := by
  cases r with
  | style selectors body =>
    have hd : (Body.withCopies fix b body).definitions = _ := Body.definitions_withCopies body
    unfold Body.definitions at hd
    rw [mapBodies, definitions, definitions]
    by_cases hs : selectors = [rootSelector] <;> simp [isRoot, Rule.body, hs, hd]
  | _ => rfl

namespace Sheet

theorem definitions_withCopies (s : Sheet) :
    (s.mapBodies (Body.withCopies fix b)).definitions =
      s.definitions.flatMap (Declaration.withCopy fix b) := by
  rw [definitions, mapBodies, List.flatMap_map, definitions, List.flatMap_assoc]
  exact congrArg List.flatten (List.map_congr_left fun r _ => r.definitions_withCopies)

theorem bindings_withCopies (s : Sheet) :
    (s.mapBodies (Body.withCopies fix b)).bindings .empty =
      (s.bindings .empty).mapValues (staticValue fix b) := by
  have he : overrideDeclarations .empty = [] := rfl
  rw [bindings, bindings, he, List.append_nil, List.append_nil, definitions_withCopies]
  exact Bindings.insertAll_withCopies .empty s.definitions

theorem definitions_appended (overrides : Bindings) :
    definitions (appended overrides) = overrideDeclarations overrides := by
  unfold appended
  split
  next h =>
    have he : overrides.entries = [] := List.isEmpty_iff.mp h
    rw [overrideDeclarations, he]
    rfl
  next => rw [definitions, List.flatMap_singleton, definitions_overrideRule]

theorem bindings_append_appended (s : Sheet) (overrides : Bindings) :
    (s ++ appended overrides).bindings .empty = s.bindings overrides := by
  have he : overrideDeclarations .empty = [] := rfl
  rw [bindings, bindings, he, List.append_nil, definitions_append, definitions_appended]

end Sheet

/-- Collecting from the sheet that a preserving run ends with gives the names that the run
collected, each with the static value of what it was bound to. -/
theorem transform_defines_static_values (o : Options) (s : Sheet) (preserve : Bool) :
    let out := s.transform { o with preserve := true }
    let m := out.bindings
    let recollected := (out.sheet.collect .empty preserve).bindings
    recollected.names = m.names ∧
      ∀ n, recollected.find? n = (m.find? n).map fun v =>
        if (resolve m v).text = v then v
        else if o.fixNestedCalc then Calc.flatten (resolve m v).text else (resolve m v).text := by
  intro out m recollected
  have ht : out = _ := Sheet.transform_of_preserve (o := { o with preserve := true }) rfl s
  have hm : m = (s.pruned o).bindings o.overrides := congrArg Outcome.bindings ht
  have hs : out.sheet =
      (s.pruned o ++ Sheet.appended o.overrides).mapBodies (Body.withCopies o.fixNestedCalc m) := by
    rw [hm, ht]
    rfl
  have hr : recollected = m.mapValues (staticValue o.fixNestedCalc m) := by
    change (out.sheet.collect .empty preserve).bindings = _
    rw [Sheet.collect_eq, hs]
    dsimp only
    rw [Sheet.bindings_withCopies, Sheet.bindings_append_appended, ← hm]
  rw [hr]
  exact ⟨Bindings.names_mapValues m, Bindings.find?_mapValues m⟩

/-- The last of two definitions is an override that refers to the first. -/
example :
    let o : Options := { overrides := .ofList [("a", "calc(1px + var(--b))")] }
    let s : Sheet := [.root [.declaration ⟨"--a", "0"⟩], .root [.declaration ⟨"--b", "calc(2px)"⟩]]
    ((s.transform o).sheet.collect .empty true).bindings =
      .ofList [("--a", "calc(1px + (2px))"), ("--b", "calc(2px)")] := by
  decide +kernel

end CustomProperties
