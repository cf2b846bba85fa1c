import CustomProperties.Proofs.Sheet.Declarations
import CustomProperties.Proofs.Transform.Pruning
import CustomProperties.Proofs.Transform.Readable

/-! # Importance

A copy carries the mark of importance of its original, as long as nothing that is put in the place
of a reference has a mark of its own. The mark of a definition would follow its value.
-/

namespace CustomProperties

open Syntax
open Sheet (Spells SpellsValue Rereads importantMark)

variable {o : Options} {b : Bindings} {marks : Bool} {css : Text} {s : Sheet}

/-- A declaration keeps its mark in the text of its value. -/
def Declaration.IsImportant (d : Declaration) : Prop := importantMark <:+ d.value

instance (d : Declaration) : Decidable d.IsImportant :=
  inferInstanceAs (Decidable (importantMark <:+ d.value))

/-! ### What becomes of a declaration -/

/-- A declaration that a run writes, and the one that it comes from. -/
structure Product where
  source : Declaration
  written : Declaration
  isResolved : Bool
  deriving DecidableEq

/-- What a run writes for a declaration. -/
def Declaration.products (o : Options) (b : Bindings) (d : Declaration) : List Product :=
  match d.copy? o.fixNestedCalc b with
  | none => [⟨d, d, false⟩]
  | some copy => if o.preserve then [⟨d, d, false⟩, ⟨d, copy, true⟩] else [⟨d, copy, true⟩]

def Sheet.products (o : Options) (s : Sheet) : List Product :=
  (s.visited o).declarations.flatMap (Declaration.products o (s.transform o).bindings)

theorem Declaration.of_mem_products {d : Declaration} {p : Product} (h : p ∈ d.products o b) :
    p.source = d ∧ ((p.isResolved = false ∧ p.written = d) ∨
      (p.isResolved = true ∧ d.copy? o.fixNestedCalc b = some p.written)) := by
  unfold products at h
  split at h
  next =>
    obtain rfl := List.mem_singleton.mp h
    exact ⟨rfl, .inl ⟨rfl, rfl⟩⟩
  next copy hc =>
    split at h
    next =>
      rcases List.mem_cons.mp h with rfl | h
      · exact ⟨rfl, .inl ⟨rfl, rfl⟩⟩
      · obtain rfl := List.mem_singleton.mp h
        exact ⟨rfl, .inr ⟨rfl, hc⟩⟩
    next =>
      obtain rfl := List.mem_singleton.mp h
      exact ⟨rfl, .inr ⟨rfl, hc⟩⟩

theorem Entry.declarations_resolved (o : Options) (b : Bindings) (e : Entry) :
    Body.declarations (e.resolved o b) =
      e.declaration?.toList.flatMap fun d => (d.products o b).map Product.written := by
  cases e with
  | comment text => rfl
  | declaration d =>
    change _ = (d.products o b).map Product.written ++ []
    rw [List.append_nil, Entry.resolved, Declaration.products]
    have hc : (Entry.declaration d).copy? o.fixNestedCalc b =
        (d.copy? o.fixNestedCalc b).map .declaration := rfl
    rw [hc]
    cases d.copy? o.fixNestedCalc b with
    | none => rfl
    | some copy => cases o.preserve <;> rfl

theorem Body.declarations_resolved (o : Options) (b : Bindings) (body : Body) :
    (body.resolved o b).declarations =
      body.declarations.flatMap fun d => (d.products o b).map Product.written := by
  induction body with
  | nil => rfl
  | cons e body ih =>
    have hcons : Body.declarations (e :: body) =
        e.declaration?.toList ++ Body.declarations body := by cases e <;> rfl
    have hres : Body.resolved o b (e :: body) = e.resolved o b ++ Body.resolved o b body := rfl
    rw [hres, Body.declarations_append, hcons, List.flatMap_append, e.declarations_resolved, ih]

theorem Sheet.declarations_transform (o : Options) (s : Sheet) :
    (s.transform o).sheet.declarations = (s.products o).map Product.written := by
  rw [products, List.map_flatMap, bindings_transform, transform_eq]
  exact declarations_mapBodies (Body.declarations_resolved o _) _

/-! ### Marks in the text of a value -/

theorem Sheet.exists_spells_of_read (hread : Sheet.read css = .ok s)
    (htidy : Node.areTidy (Node.readAll (standardize css)) = true) :
    ∀ d ∈ s.declarations, ∃ closer, Spells closer d.value (SpellsValue True d.value) := by
  have hi : Inherited fun ns => ∃ closer, Node.Tidied closer ns := by
    constructor
    · rintro _ _ ⟨closer, h⟩ hi
      exact ⟨closer, h.of_isInfix hi⟩
    · rintro _ _ _ ⟨_, h⟩ hm hb
      exact ⟨_, h.content hm hb⟩
  have hn : ∃ closer, Node.Tidied closer (Node.readAll (standardize css)) :=
    ⟨none, htidy, _, _, Node.parses_readAll _, isStandard_standardize css⟩
  intro d hd
  rw [declarations_eq] at hd
  obtain ⟨r, hr, hd⟩ := List.mem_flatMap.mp hd
  refine (readsRules_of_read hread).forall_declarations (q := fun d => ∃ closer, Spells closer d.value
    (SpellsValue True d.value)) hi ?_ hn r hr d hd
  rintro name taken value important ⟨closer, h⟩ ht hv
  exact ⟨closer, spellsValue h ht hv⟩

theorem Sheet.references_visited_subset (ho : o.overrides.isEmpty = true) (s : Sheet) :
    (s.visited o).references ⊆ s.declarations := by
  have h : (s.visited o).references = (s.afterCollection o.overrides o.preserve).references := by
    unfold visited pruned
    split
    next => exact references_afterCollection_prune _ _ s
    next => rfl
  rw [h, afterCollection, ho]
  split
  next => exact List.filter_subset_self _
  next => exact List.Subset.trans (List.filter_subset_self _) (s.declarations_dropDefinitions).subset

theorem Declaration.isImportant_iff {closer : Option Bracket} {d : Declaration} {s : Reader}
    (hs : Spells closer d.value (SpellsValue True d.value))
    (hr : Reader.initial.runAround? true d.value = some s) (hf : s.isFinal = true) :
    d.IsImportant ↔ s.mode = .mark [] := by
  obtain ⟨r, hrun, hb, hm⟩ := (Resolution.agrees_self true d.value).exists_run? hr
  have hr : r.isFinal = true := by rwa [Reader.isFinal, hb, hm]
  obtain ⟨vs, hp, hv⟩ := hs.reads [] Sheet.ended_nil
  obtain ⟨value, important, hval, htext, -⟩ := hv.same trivial
  rw [IsImportant, ← hm, ← htext]
  exact Sheet.importantMark_isSuffix_iff hrun hr Sheet.ended_nil hp (List.forall_mem_nil _)
    (by rwa [List.append_nil])

theorem Declaration.isImportant_reread_iff {closer : Option Bracket} {fix : Bool}
    {d copy e : Declaration} (hs : Spells closer d.value (SpellsValue True d.value))
    (h : d.isContained true b = true) (hc : d.copy? fix b = some copy) (he : Rereads copy e) :
    e.IsImportant ↔ d.IsImportant := by
  obtain ⟨s, r, hsrun, hsf, hrun, hrf, hm⟩ := exists_run?_copy h hc
  obtain ⟨w, vs, cs, value, important, hw, hp, hcs, hv, htext⟩ := he.value
  rw [isImportant_iff hs hsrun hsf, ← hm, IsImportant, htext]
  exact Sheet.importantMark_isSuffix_iff hrun hrf hw hp hcs hv

/-- Resolved declarations keep their importance. What a run writes is read again, declaration by
declaration, and what was resolved is important exactly if its source is. -/
theorem transform_keeps_importance {css : Text} {s : Sheet} (o : Options)
    (hread : Sheet.read css = .ok s) (ho : o.overrides.isEmpty = true)
    (htidy : Node.areTidy (Node.readAll (standardize css)) = true)
    (hpreludes : ∀ prelude ∈ Sheet.preludes true (Node.readAll (standardize css)),
      Sheet.Listed prelude)
    (hnames : ∀ d ∈ s.declarations, writeIdent d.property = d.property)
    (hcontained : ∀ site ∈ (s.transform o).sites, site.changes = true →
      site.declaration.isContained true (s.transform o).bindings = true) :
    ∃ out s', (transform o css).result = .ok out ∧ Sheet.read out = .ok s' ∧
      (s.transform o).sheet.declarations = (s.products o).map Product.written ∧
      List.Forall₂ (fun p e => e.property = p.source.property ∧
        (p.isResolved = true → (e.IsImportant ↔ p.source.IsImportant)))
        (s.products o) s'.declarations := by
  have hcopy {d copy : Declaration} (hd : d ∈ (s.visited o).declarations)
      (h : d.copy? o.fixNestedCalc (s.transform o).bindings = some copy) :=
    Sheet.isContained_of_copy? hcontained hd h
  have hcopies : CopiesSpelled o.fixNestedCalc (s.transform o).bindings
      (s.visited o).declarations := fun d hd copy hc => by
    obtain ⟨-, r, -, -, hr, hf, -⟩ := Declaration.exists_run?_copy (hcopy hd hc) hc
    exact Sheet.spells_of_run hr hf
  have hspells := Sheet.spells_transform (Sheet.spells_of_read hread htidy hpreludes hnames) ho hcopies
  obtain ⟨s', hs', -, hall⟩ := Sheet.exists_reread hspells
  refine ⟨_, s', (transform_of_read o hread).1, hs', s.declarations_transform o, ?_⟩
  rw [s.declarations_transform, List.forall₂_map_left_iff] at hall
  refine ((List.forall₂_and_left _ _).mpr ⟨fun p hp => hp, hall⟩).imp ?_
  rintro p e ⟨hp, he⟩
  obtain ⟨d, hd, hp⟩ := List.mem_flatMap.mp hp
  obtain ⟨rfl, ⟨hn, hw⟩ | ⟨-, hc⟩⟩ := Declaration.of_mem_products hp
  · rw [hn]
    exact ⟨hw ▸ he.property, nofun⟩
  · have href := List.mem_filter.mpr ⟨hd, (Declaration.changes_of_copy? hc).1⟩
    obtain ⟨closer, hsp⟩ := Sheet.exists_spells_of_read hread htidy _
      (Sheet.references_visited_subset ho s href)
    exact ⟨he.property.trans (Declaration.copy?_property hc), fun _ =>
      Declaration.isImportant_reread_iff hsp (hcopy hd hc) hc he⟩

/-- A mark stands behind a reference to a definition with another reference, and a fallback has
none. -/
theorem transform_keeps_importance_nested :
    let css : Text := ":root" ++ inBraces "--x:1px;--y:calc(var(--x)*2)" ++
      "a" ++ inBraces "top:var(--y)!important;left:var(--z,var(--x))"
    let s : Sheet := [.root [.declaration ⟨"--x", "1px"⟩, .declaration ⟨"--y", "calc(var(--x)*2)"⟩],
      .style ["a"] [.declaration ⟨"top", "var(--y) !important"⟩,
        .declaration ⟨"left", "var(--z,var(--x))"⟩]]
    Sheet.read css = .ok s ∧ ∃ out s', (transform {} css).result = .ok out ∧
      out = ":root" ++ inBraces "--x:1px;--y:calc(var(--x)*2);--y:calc(1px*2)" ++
        "a" ++ inBraces ("top:var(--y) !important;top:calc(1px*2) !important;" ++
          "left:var(--z,var(--x));left:1px") ∧
      Sheet.read out = .ok s' ∧
      List.Forall₂ (fun p e => e.property = p.source.property ∧
        (p.isResolved = true → (e.IsImportant ↔ p.source.IsImportant)))
        (s.products {}) s'.declarations := by
  intro css s
  have hs : Sheet.read css = .ok s := by decide +kernel
  obtain ⟨out, s', hout, hread, -, hall⟩ := transform_keeps_importance {} hs rfl (by decide +kernel)
    (by decide +kernel) (by decide +kernel) (by decide +kernel)
  refine ⟨hs, out, s', hout, ?_, hread, hall⟩
  exact Except.ok.inj (hout.symm.trans (by decide +kernel))

/-- The mark of a definition, and that of a fallback, become those of a declaration without one. -/
theorem transform_keeps_importance_fails :
    let o : Options := { preserve := false }
    let css : Text := ":root" ++ inBraces "--x:1px !important" ++ "a" ++ inBraces "b:var(--x)"
    let s : Sheet := [.root [.declaration ⟨"--x", "1px !important"⟩],
      .style ["a"] [.declaration ⟨"b", "var(--x)"⟩]]
    let fallback : Text := "a" ++ inBraces "b:var(--x,1px !important)"
    let s' : Sheet := [.style ["a"] [.declaration ⟨"b", "var(--x,1px !important)"⟩]]
    let out : Text := "a" ++ inBraces "b:1px !important"
    let read : Sheet := [.style ["a"] [.declaration ⟨"b", "1px !important"⟩]]
    (Sheet.read css = .ok s ∧ (transform o css).result = .ok out ∧
      s.products o = [⟨⟨"b", "var(--x)"⟩, ⟨"b", "1px !important"⟩, true⟩] ∧
      ¬Declaration.IsImportant ⟨"b", "var(--x)"⟩) ∧
    (Sheet.read fallback = .ok s' ∧ (transform o fallback).result = .ok out ∧
      s'.products o = [⟨⟨"b", "var(--x,1px !important)"⟩, ⟨"b", "1px !important"⟩, true⟩] ∧
      ¬Declaration.IsImportant ⟨"b", "var(--x,1px !important)"⟩) ∧
    Sheet.read out = .ok read ∧ ∀ d ∈ read.declarations, d.IsImportant := by
  decide +kernel

end CustomProperties
