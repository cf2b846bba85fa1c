import CustomProperties.Proofs.Sheet.Walk
import CustomProperties.Variables

/-! # What collecting does

The pass over the sheet binds the definitions of its root rules in document order, whether or not
it takes them out. Deleting them by their positions leaves the other entries in their order.
-/

namespace CustomProperties

theorem Bindings.insertAll_append (b : Bindings) (es es' : List (Text × Text)) :
    b.insertAll (es ++ es') = (b.insertAll es).insertAll es' :=
  List.foldl_append

theorem Bindings.find?_insertAll_eq_none_iff {b : Bindings} {es : List (Text × Text)}
    {name : Text} :
    (b.insertAll es).find? name = none ↔ b.find? name = none ∧ ∀ e ∈ es, e.1 ≠ name := by
  induction es generalizing b with
  | nil => simp [insertAll]
  | cons e es ih =>
    have hc : b.insertAll (e :: es) = (b.insert e.1 e.2).insertAll es := rfl
    rw [hc, ih, find?_insert, List.forall_mem_cons]
    split
    next he => simp [he]
    next he => simp [Ne.symm he]

theorem Bindings.find?_insertAll_of_forall_ne {b : Bindings} {es : List (Text × Text)} {name : Text}
    (h : ∀ e ∈ es, e.1 ≠ name) : (b.insertAll es).find? name = b.find? name := by
  induction es generalizing b with
  | nil => rfl
  | cons e es ih =>
    obtain ⟨he, hes⟩ := List.forall_mem_cons.mp h
    have hc : b.insertAll (e :: es) = (b.insert e.1 e.2).insertAll es := rfl
    rw [hc, ih hes, find?_insert, if_neg (Ne.symm he)]

def Declaration.binding (d : Declaration) : Text × Text := (d.property, d.value)

namespace Body

def definitions (body : Body) : List Declaration :=
  body.declarations.filter Declaration.isDefinition

/-- The positions of the definitions in a body that starts at position `n`. -/
def positionsFrom (n : Nat) (body : Body) : List Nat :=
  ((body.zipIdx n).filter fun e => e.1.isDefinition).map Prod.snd

theorem definitions_cons (e : Entry) (body : Body) :
    definitions (e :: body) = definitions [e] ++ definitions body := by
  rw [← List.singleton_append, definitions, declarations, List.filterMap_append, List.filter_append]
  rfl

theorem positionsFrom_cons (n : Nat) (e : Entry) (body : Body) :
    positionsFrom n (e :: body) =
      if e.isDefinition then n :: positionsFrom (n + 1) body else positionsFrom (n + 1) body := by
  by_cases he : e.isDefinition <;> simp [positionsFrom, he]

theorem consumeEntry_eq (b : Bindings) (ps : List Nat) (e : Entry) (i : Nat) :
    consumeEntry (b, ps) (e, i) = (b.insertAll ((definitions [e]).map Declaration.binding),
      ps ++ if e.isDefinition then [i] else []) := by
  cases e with
  | comment text => simp [consumeEntry, Entry.isDefinition, Entry.declaration?]; rfl
  | declaration d =>
    by_cases hd : d.isDefinition <;>
      simp [consumeEntry, definitions, declarations, Entry.declaration?, Entry.isDefinition,
        Declaration.binding, Bindings.insertAll, hd]

theorem foldl_consumeEntry (b : Bindings) (ps : List Nat) (n : Nat) (body : Body) :
    (body.zipIdx n).foldl consumeEntry (b, ps) =
      (b.insertAll (body.definitions.map Declaration.binding), ps ++ positionsFrom n body) := by
  induction body generalizing b ps n with
  | nil => simp [definitions, declarations, positionsFrom, Bindings.insertAll]
  | cons e body ih =>
    rw [List.zipIdx_cons, List.foldl_cons, consumeEntry_eq, ih, definitions_cons e body,
      positionsFrom_cons, List.map_append, Bindings.insertAll_append]
    split <;> simp

theorem eraseAll_positionsFrom (before body : Body) :
    eraseAll (positionsFrom before.length body) (before ++ body) =
      before ++ body.filter (!·.isDefinition) := by
  induction body generalizing before with
  | nil => simp [positionsFrom, eraseAll]
  | cons e body ih =>
    have hs := ih (before ++ [e])
    rw [List.length_append, List.length_singleton, List.append_assoc, List.singleton_append] at hs
    rw [positionsFrom_cons]
    split
    next he =>
      change (eraseAll (positionsFrom (before.length + 1) body) _).eraseIdx before.length = _
      rw [hs]
      simp [he, List.eraseIdx_append_of_length_le]
    next he => simp [hs, he]

theorem consume_eq (b : Bindings) (body : Body) :
    consume b body = (b.insertAll (body.definitions.map Declaration.binding), positionsFrom 0 body) :=
  foldl_consumeEntry b [] 0 body

end Body

namespace Rule

theorem definitions_of_not_isRoot {r : Rule} (h : r.isRoot = false) : r.definitions = [] := by
  rw [definitions, h, if_neg Bool.false_ne_true]

theorem dropDefinitions_root (body : Body) :
    (root body).dropDefinitions = root (body.filter (!·.isDefinition)) := by
  rw [root, dropDefinitions, if_pos rfl, root]

theorem collect_eq (preserve : Bool) (r : Rule) (b : Bindings) :
    r.collect preserve b = (if preserve then r else r.dropDefinitions,
      b.insertAll (r.definitions.map Declaration.binding)) := by
  cases r with
  | style selectors body =>
    by_cases hs : selectors = [rootSelector]
    · have he := Body.eraseAll_positionsFrom [] body
      cases preserve <;>
        simp_all [collect, Body.consume_eq, dropDefinitions, definitions, isRoot, Rule.body,
          Body.definitions]
    · cases preserve <;>
        simp [collect, dropDefinitions, definitions, isRoot, hs, Bindings.insertAll]
  | _ =>
    cases preserve <;>
      · simp [dropDefinitions, definitions, isRoot, Bindings.insertAll]
        rfl

end Rule

theorem foldl_collectOverride (b : Bindings) (body : Body) (es : List (Text × Text)) :
    es.foldl collectOverride (b, body) =
      (b.insertAll (es.map fun e => (normalizeName e.1, e.2)),
        body ++ es.map fun e => .declaration ⟨normalizeName e.1, e.2⟩) := by
  induction es generalizing b body with
  | nil => simp [Bindings.insertAll]
  | cons e es ih => simp [collectOverride, ih, Bindings.insertAll]

namespace Sheet

theorem mapM_collect (s : Sheet) (b : Bindings) (preserve : Bool) :
    s.mapM (Rule.collect preserve) b = (if preserve then s else s.map Rule.dropDefinitions,
      b.insertAll (s.definitions.map Declaration.binding)) := by
  rw [mapM_eq_map (Rule.collect_eq preserve)]
  congr 1
  · cases preserve <;> simp
  · induction s generalizing b with
    | nil => rfl
    | cons r s ih =>
      rw [List.foldl_cons, ih, ← Bindings.insertAll_append, ← List.map_append]
      rfl

/-- Collecting gives the bindings of the sheet whether or not it preserves their definitions. -/
theorem collect_eq (s : Sheet) (overrides : Bindings) (preserve : Bool) :
    s.collect overrides preserve = ⟨s.bindings overrides, s.afterCollection overrides preserve⟩ := by
  have hc : s.collect overrides preserve =
      let collected := s.mapM (Rule.collect preserve) Bindings.empty
      if overrides.isEmpty then ⟨collected.2, collected.1⟩
      else
        let given := overrides.entries.foldl collectOverride (collected.2, [])
        ⟨given.1, if preserve then collected.1 ++ [.root given.2] else collected.1⟩ := rfl
  have hb : s.bindings overrides =
      (Bindings.empty.insertAll (s.definitions.map Declaration.binding)).insertAll
        (overrides.entries.map fun e => (normalizeName e.1, e.2)) := by
    rw [bindings, Bindings.ofList, List.map_append, Bindings.insertAll_append,
      overrideDeclarations, List.map_map]
    rfl
  rw [hc, mapM_collect, hb, afterCollection]
  dsimp only
  rw [foldl_collectOverride]
  split
  next he =>
    have hes : overrides.entries = [] := List.isEmpty_iff.mp he
    simp [hes, Bindings.insertAll]
  next =>
    cases preserve <;> simp [overrideRule, overrideDeclarations, Function.comp_def]

theorem find?_bindings_eq_none_iff {s : Sheet} {overrides : Bindings} {name : Text} :
    (s.bindings overrides).find? name = none ↔
      (∀ d ∈ s.definitions, d.property ≠ name) ∧
        ∀ e ∈ overrides.entries, normalizeName e.1 ≠ name := by
  rw [bindings, Bindings.ofList, Bindings.find?_insertAll_eq_none_iff, List.forall_mem_map,
    List.forall_mem_append, overrideDeclarations, List.forall_mem_map]
  exact and_iff_right rfl

theorem find?_bindings_of_last {s : Sheet} {overrides : Bindings} (ho : overrides.isEmpty = true)
    {ds ds' : List Declaration} {d : Declaration} (hs : s.definitions = ds ++ d :: ds')
    (hl : ∀ d' ∈ ds', d'.property ≠ d.property) :
    (s.bindings overrides).find? d.property = some d.value := by
  have hes : overrides.entries = [] := List.isEmpty_iff.mp ho
  rw [bindings, hs, overrideDeclarations, hes, List.map_nil, List.append_nil, List.map_append,
    List.map_cons, ← List.concat_append, Bindings.ofList, Bindings.insertAll_append,
    Bindings.find?_insertAll_of_forall_ne (List.forall_mem_map.mpr hl)]
  simp [Bindings.insertAll]

end Sheet

end CustomProperties
