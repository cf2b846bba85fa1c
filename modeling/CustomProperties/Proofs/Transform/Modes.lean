import CustomProperties.Proofs.Transform.Run

/-! # The two modes

When declarations are preserved, copies are added and nothing else is touched. When they are not,
what stands in the sheet is what is left after the definitions, the override rule and the
originals of all copies have been taken out.
-/

namespace CustomProperties

variable {fix : Bool} {b : Bindings}

theorem Declaration.copy?_property {d copy : Declaration} (h : d.copy? fix b = some copy) :
    copy.property = d.property := by
  simp only [copy?, Option.ite_none_right_eq_some, Option.some.injEq] at h
  obtain ⟨-, rfl⟩ := h
  rfl

theorem Entry.copy?_isDefinition {e copy : Entry} (h : e.copy? fix b = some copy) :
    copy.isDefinition = e.isDefinition := by
  cases e with
  | comment text => contradiction
  | declaration d =>
    obtain ⟨d', hd, rfl⟩ := Option.map_eq_some_iff.mp h
    change d'.isDefinition = d.isDefinition
    rw [Declaration.isDefinition, Declaration.copy?_property hd, Declaration.isDefinition]

namespace Body

def withCopies (fix : Bool) (b : Bindings) (body : Body) : Body :=
  body.flatMap fun e => e :: (e.copy? fix b).toList

def replaced (fix : Bool) (b : Bindings) (body : Body) : Body :=
  body.map fun e => (e.copy? fix b).getD e

/-- A body with copies without their originals. The copies are not looked at. -/
def withoutOriginals (fix : Bool) (b : Bindings) : Body → Body
  | e :: next :: body =>
    if (e.copy? fix b).isSome then next :: withoutOriginals fix b body
    else e :: withoutOriginals fix b (next :: body)
  | body => body

theorem resolved_of_preserve {o : Options} (h : o.preserve = true) :
    resolved o b = withCopies o.fixNestedCalc b := by
  funext body
  refine congrArg (body.flatMap ·) (funext fun e => ?_)
  unfold Entry.resolved
  rw [h]
  cases e.copy? o.fixNestedCalc b <;> rfl

theorem resolved_of_not_preserve {o : Options} (h : o.preserve = false) :
    resolved o b = replaced o.fixNestedCalc b := by
  funext body
  rw [replaced, List.map_eq_flatMap]
  refine congrArg (body.flatMap ·) (funext fun e => ?_)
  unfold Entry.resolved
  rw [h]
  cases e.copy? o.fixNestedCalc b <;> rfl

theorem withCopies_cons (e : Entry) (body : Body) :
    withCopies fix b (e :: body) = e :: ((e.copy? fix b).toList ++ withCopies fix b body) := rfl

theorem filter_withCopies (body : Body) :
    (withCopies fix b body).filter (!·.isDefinition) =
      withCopies fix b (body.filter (!·.isDefinition)) := by
  induction body with
  | nil => rfl
  | cons e body ih =>
    rw [withCopies_cons]
    cases hc : e.copy? fix b with
    | none => by_cases he : e.isDefinition <;> simp [withCopies_cons, he, hc, ih]
    | some copy =>
      have hd := Entry.copy?_isDefinition hc
      by_cases he : e.isDefinition <;> simp [withCopies_cons, he, hd, hc, ih]

theorem withoutOriginals_cons {e : Entry} (h : e.copy? fix b = none) (body : Body) :
    withoutOriginals fix b (e :: body) = e :: withoutOriginals fix b body := by
  cases body with
  | nil => rfl
  | cons next body => simp [withoutOriginals, h]

theorem withoutOriginals_cons_cons {e copy : Entry} (h : e.copy? fix b = some copy)
    (next : Entry) (body : Body) :
    withoutOriginals fix b (e :: next :: body) = next :: withoutOriginals fix b body := by
  simp [withoutOriginals, h]

theorem withoutOriginals_withCopies (body : Body) :
    withoutOriginals fix b (withCopies fix b body) = replaced fix b body := by
  induction body with
  | nil => rfl
  | cons e body ih =>
    rw [withCopies_cons, replaced, List.map_cons, ← replaced, ← ih]
    cases hc : e.copy? fix b with
    | none => exact withoutOriginals_cons hc _
    | some copy => exact withoutOriginals_cons_cons hc copy _

end Body

namespace Sheet

variable {o : Options}

/-- What a run that preserves declarations appends to the sheet. -/
def appended (overrides : Bindings) : Sheet :=
  if overrides.isEmpty then [] else [overrideRule overrides]

theorem visited_of_preserve (h : o.preserve = true) (s : Sheet) :
    s.visited o = s.pruned o ++ appended o.overrides := by
  rw [visited, afterCollection, if_pos h, appended]
  split
  · exact (List.append_nil _).symm
  · rfl

theorem transform_of_preserve (h : o.preserve = true) (s : Sheet) :
    s.transform o =
      let b := (s.pruned o).bindings o.overrides
      let visited := s.pruned o ++ appended o.overrides
      ⟨visited.mapBodies (Body.withCopies o.fixNestedCalc b), b, sitesOf b visited.declarations⟩ := by
  rw [transform_eq, visited_of_preserve h]
  dsimp only
  rw [Body.resolved_of_preserve h]

theorem transform_of_not_preserve (h : o.preserve = false) (s : Sheet) :
    s.transform o =
      let b := (s.pruned o).bindings o.overrides
      let visited : Sheet := (s.pruned o).map Rule.dropDefinitions
      ⟨visited.mapBodies (Body.replaced o.fixNestedCalc b), b, sitesOf b visited.declarations⟩ := by
  have hv : s.visited o = (s.pruned o).map Rule.dropDefinitions := by
    rw [visited, afterCollection, h]
    rfl
  rw [transform_eq, hv]
  dsimp only
  rw [Body.resolved_of_not_preserve h]

theorem take_mapBodies_append (f : Body → Body) (s s' : Sheet) :
    (mapBodies f (s ++ s')).take s.length = s.mapBodies f := by
  rw [mapBodies, List.map_append]
  exact List.take_left' (List.length_map _)

/-- Without definitions and originals, a sheet with copies is the sheet of replaced values. -/
theorem mapBodies_withoutOriginals (s : Sheet) :
    mapBodies (Body.withoutOriginals fix b)
        ((s.mapBodies (Body.withCopies fix b)).map Rule.dropDefinitions) =
      mapBodies (Body.replaced fix b) (s.map Rule.dropDefinitions) := by
  have hd : (s.mapBodies (Body.withCopies fix b)).map Rule.dropDefinitions =
      mapBodies (Body.withCopies fix b) (s.map Rule.dropDefinitions) := by
    rw [mapBodies, mapBodies, List.map_map, List.map_map]
    exact List.map_congr_left fun r _ => r.dropDefinitions_mapBodies Body.filter_withCopies
  have hf : Body.withoutOriginals fix b ∘ Body.withCopies fix b = Body.replaced fix b :=
    funext Body.withoutOriginals_withCopies
  rw [hd, mapBodies_mapBodies, hf]

end Sheet

theorem warnings_sitesOf (b : Bindings) (ds : List Declaration) :
    (sitesOf b ds).flatMap (fun site => site.resolution.warnings) =
      (ds.filter Declaration.isReference).flatMap fun d => (resolve b d.value).warnings := by
  rw [sitesOf, List.flatMap_map]
  rfl

theorem sitesOf_sublist {ds ds' : List Declaration} (h : ds.Sublist ds') :
    (sitesOf b ds).Sublist (sitesOf b ds') :=
  (h.filter _).map _

variable {o : Options} {css : Text} {s : Sheet}

/-- When declarations are preserved, the written sheet is the sheet that was read, pruned if that
is asked for, and the override rule if there is one, with a copy after each declaration that
changes. Exactly the declarations of that sheet are visited, in document order. -/
theorem transform_adds_copies (h : Sheet.read css = .ok s) (hp : o.preserve = true) :
    let b := (s.pruned o).bindings o.overrides
    let visited := s.pruned o ++ Sheet.appended o.overrides
    (s.transform o).sheet = visited.mapBodies (Body.withCopies o.fixNestedCalc b) ∧
      (s.transform o).bindings = b ∧
      (s.transform o).sites = visited.references.map (Declaration.site b) ∧
      (transform o css).result = .ok (s.transform o).sheet.text ∧
      (transform o css).warnings =
        visited.references.flatMap fun d => (resolve b d.value).warnings := by
  intro b visited
  obtain ⟨hr, hw⟩ := transform_of_read o h
  have ht := Sheet.transform_of_preserve hp s
  refine ⟨?_, ?_, ?_, hr, ?_⟩
  · rw [ht]
  · rw [ht]
  · rw [ht]
    rfl
  · rw [hw, ht]
    exact warnings_sitesOf b _

/-- A copy in which a reference is left, and one in a keyframe that comes from an override. -/
theorem transform_adds_copies_to_keyframes :
    let o : Options := { overrides := .ofList [("b", "2px")] }
    let css : Text := ":root" ++ inBraces "--a:1px" ++
      "@media print" ++ inBraces ("p" ++ inBraces "top:var(--a) var(--u);left:0") ++
      "@keyframes k" ++ inBraces ("to" ++ inBraces "/**/top:var(--b)")
    ∃ s, (Sheet.read css = .ok s ∧ o.preserve = true) ∧
      (s.transform o).sheet = (s.pruned o ++ Sheet.appended o.overrides).mapBodies
        (Body.withCopies true ((s.pruned o).bindings o.overrides)) ∧
      (s.transform o).sheet.text = ":root" ++ inBraces "--a:1px" ++
        "@media print" ++ inBraces ("p" ++ inBraces "top:var(--a) var(--u);top:1px var(--u)") ++
        "@keyframes k" ++ inBraces ("to" ++ inBraces "/**/top:var(--b);top:2px") ++
        ":root" ++ inBraces "--b:2px" ∧
      (transform o css).warnings = [.undefined "--u"] := by
  intro o css
  have hok : (Sheet.read css).isOk = true := by decide +kernel
  obtain ⟨s, h⟩ := Sheet.exists_of_isOk hok
  obtain ⟨hs, -, -, hr, -⟩ := transform_adds_copies (o := o) h rfl
  refine ⟨s, ⟨h, rfl⟩, hs, ?_, by decide +kernel⟩
  exact Except.ok.inj (hr.symm.trans (by decide +kernel))

/-- A run that does not preserve declarations collects the same bindings as one that does, gives
every declaration that changes the value of the copy, and leaves what is left of the other sheet
without its definitions, the override rule and the originals of the copies. -/
theorem transform_modes_agree (h : Sheet.read css = .ok s) (o : Options) :
    let oP := { o with preserve := true }
    let oR := { o with preserve := false }
    let kept := s.pruned o
    let b := (s.transform oP).bindings
    (s.transform oR).bindings = b ∧
      (s.transform oP).sheet =
        (kept ++ Sheet.appended o.overrides).mapBodies (Body.withCopies o.fixNestedCalc b) ∧
      (s.transform oR).sheet =
        Sheet.mapBodies (Body.replaced o.fixNestedCalc b) (kept.map Rule.dropDefinitions) ∧
      (s.transform oR).sheet = Sheet.mapBodies (Body.withoutOriginals o.fixNestedCalc b)
        (((s.transform oP).sheet.take kept.length).map Rule.dropDefinitions) ∧
      (transform oP css).result = .ok (s.transform oP).sheet.text ∧
      (transform oR css).result = .ok (s.transform oR).sheet.text ∧
      (transform oR css).warnings.Sublist (transform oP css).warnings := by
  intro oP oR kept b
  obtain ⟨hrP, hwP⟩ := transform_of_read oP h
  obtain ⟨hrR, hwR⟩ := transform_of_read oR h
  have hP : s.transform oP = _ := Sheet.transform_of_preserve rfl s
  have hR : s.transform oR = _ := Sheet.transform_of_not_preserve rfl s
  have hb : b = kept.bindings o.overrides := congrArg Outcome.bindings hP
  refine ⟨?_, ?_, ?_, ?_, hrP, hrR, ?_⟩
  · rw [hR, hb]
    rfl
  · rw [hP, hb]
    rfl
  · rw [hR, hb]
    rfl
  · have ht : (s.transform oP).sheet.take kept.length =
        kept.mapBodies (Body.withCopies o.fixNestedCalc b) := by
      rw [hP, hb]
      exact Sheet.take_mapBodies_append _ kept _
    rw [ht, Sheet.mapBodies_withoutOriginals, hR, hb]
    rfl
  · rw [hwP, hwR, hP, hR]
    have hd : (Sheet.declarations (kept.map Rule.dropDefinitions)).Sublist
        (Sheet.declarations (kept ++ Sheet.appended o.overrides)) := by
      rw [Sheet.declarations_append]
      exact (Sheet.declarations_dropDefinitions kept).trans (List.sublist_append_left _ _)
    exact (sitesOf_sublist hd).flatMap _

/-- Where the sheet has definitions that refer to variables, and the run an override. -/
theorem transform_modes_agree_on_definitions :
    let o : Options := { overrides := .ofList [("b", "2px")] }
    let css : Text := ":root" ++ inBraces "--a:var(--b);top:var(--a)" ++
      "p" ++ inBraces "--c:var(--u);top:var(--a)"
    ∃ s, Sheet.read css = .ok s ∧
      (s.transform { o with preserve := true }).sheet.text =
        ":root" ++ inBraces "--a:var(--b);--a:2px;top:var(--a);top:2px" ++
        "p" ++ inBraces "--c:var(--u);top:var(--a);top:2px" ++ ":root" ++ inBraces "--b:2px" ∧
      (s.transform { o with preserve := false }).sheet.text =
        ":root" ++ inBraces "top:2px" ++ "p" ++ inBraces "--c:var(--u);top:2px" ∧
      (s.transform { o with preserve := false }).bindings =
        (s.transform { o with preserve := true }).bindings := by
  intro o css
  have hok : (Sheet.read css).isOk = true := by decide +kernel
  obtain ⟨s, h⟩ := Sheet.exists_of_isOk hok
  obtain ⟨hb, -, -, -, hrP, hrR, -⟩ := transform_modes_agree h o
  refine ⟨s, h, ?_, ?_, hb⟩
  · exact Except.ok.inj (hrP.symm.trans (by decide +kernel))
  · exact Except.ok.inj (hrR.symm.trans (by decide +kernel))

end CustomProperties
