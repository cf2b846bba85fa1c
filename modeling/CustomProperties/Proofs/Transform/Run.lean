import CustomProperties.Proofs.Sheet.Bodies
import CustomProperties.Proofs.Variables.Collection
import CustomProperties.Transform

/-! # What a run does

While a scan goes through a body, the entries behind its position are the resolved ones and those
before it are still the original ones. So copies are never visited, and the scan ends with every
entry resolved on its own and one site for each declaration that refers to a variable. A run of the
transform does this to every body of the sheet that collecting leaves.
-/

namespace CustomProperties

/-- The resolved copy of a declaration that refers to a variable and changes. -/
def Declaration.copy? (fixNestedCalc : Bool) (b : Bindings) (d : Declaration) :
    Option Declaration :=
  let value := (resolve b d.value).text
  if d.isReference ∧ value ≠ d.value then
    some ⟨d.property, if fixNestedCalc then Calc.flatten value else value⟩
  else none

namespace Entry

def copy? (fixNestedCalc : Bool) (b : Bindings) (e : Entry) : Option Entry :=
  (e.declaration?.bind (Declaration.copy? fixNestedCalc b)).map .declaration

def resolved (o : Options) (b : Bindings) (e : Entry) : List Entry :=
  match e.copy? o.fixNestedCalc b with
  | none => [e]
  | some copy => if o.preserve then [e, copy] else [copy]

end Entry

def Declaration.site (b : Bindings) (d : Declaration) : Site := ⟨d, resolve b d.value⟩

def sitesOf (b : Bindings) (ds : List Declaration) : List Site :=
  (ds.filter Declaration.isReference).map (Declaration.site b)

namespace Body

def resolved (o : Options) (b : Bindings) (body : Body) : Body := body.flatMap (Entry.resolved o b)

end Body

theorem sitesOf_append (b : Bindings) (ds ds' : List Declaration) :
    sitesOf b (ds ++ ds') = sitesOf b ds ++ sitesOf b ds' := by
  simp [sitesOf]

theorem insertIdx_append {α : Type} (xs ys : List α) (a : α) :
    (xs ++ ys).insertIdx xs.length a = xs ++ a :: ys := by
  induction xs with
  | nil => rfl
  | cons x xs ih => exact congrArg (x :: ·) ih

namespace Scan

variable {o : Options} {b : Bindings} {log : List Site} {done rest : Body} {e : Entry} {s : Scan}

/-- The scan has visited the entries `done` and still has to visit `rest`. -/
structure Reached (o : Options) (b : Bindings) (log : List Site) (done rest : Body) (s : Scan) :
    Prop where
  body : s.body = Body.resolved o b done ++ rest
  position : s.position = (Body.resolved o b done).length
  sites : s.sites = log ++ sitesOf b (Body.declarations done)

theorem Reached.skip (h : Reached o b log done (e :: rest) s) (he : e.resolved o b = [e])
    (hs : sitesOf b (Body.declarations [e]) = []) :
    Reached o b log (done ++ [e]) rest s.skip where
  body := by simp [Scan.skip, h.body, Body.resolved, he]
  position := by simp [Scan.skip, h.position, Body.resolved, he]
  sites := by rw [Body.declarations_append, sitesOf_append, hs, List.append_nil]; exact h.sites

theorem resolved_declaration (o : Options) (b : Bindings) {d : Declaration}
    (hd : d.isReference = true) :
    Entry.resolved o b (.declaration d) =
      if !(d.site b).changes then [.declaration d]
      else if o.preserve then [.declaration d, .declaration ((d.site b).resolved o.fixNestedCalc)]
      else [.declaration ((d.site b).resolved o.fixNestedCalc)] := by
  by_cases hv : (resolve b d.value).text = d.value <;>
    simp [Entry.resolved, Entry.copy?, Entry.declaration?, Declaration.copy?, Declaration.site,
      Site.changes, Site.resolved, hd, hv]

theorem Reached.meet {d : Declaration} (h : Reached o b log done (.declaration d :: rest) s)
    (hd : d.isReference = true) :
    Reached o b log (done ++ [.declaration d]) rest (s.meet o (d.site b)) := by
  have hs : s.sites ++ [d.site b] =
      log ++ sitesOf b (Body.declarations (done ++ [.declaration d])) := by
    rw [Body.declarations_append, sitesOf_append, ← List.append_assoc, ← h.sites]
    simp [Body.declarations, Entry.declaration?, sitesOf, hd]
  have hr : Body.resolved o b (done ++ [.declaration d]) =
      Body.resolved o b done ++ Entry.resolved o b (.declaration d) := by
    simp [Body.resolved]
  rw [resolved_declaration o b hd] at hr
  unfold Scan.meet
  split at hr
  next hc =>
    rw [if_pos hc]
    exact ⟨by simp [Scan.skip, h.body, hr], by simp [Scan.skip, h.position, hr], hs⟩
  next hc =>
    rw [if_neg hc]
    split at hr
    next hp =>
      rw [if_pos hp]
      refine ⟨?_, by simp [h.position, hr], hs⟩
      -- the copy goes in behind the resolved entries and the original
      have hi := insertIdx_append (Body.resolved o b done ++ [.declaration d]) rest
        (.declaration ((d.site b).resolved o.fixNestedCalc))
      rw [hr, h.body, h.position]
      simpa using hi
    next hp =>
      rw [if_neg hp]
      exact ⟨by simp [h.body, h.position, hr], by simp [h.position, hr], hs⟩

theorem Reached.step (h : Reached o b log done (e :: rest) s) :
    Reached o b log (done ++ [e]) rest (s.step o b e) := by
  cases e with
  | comment text => exact h.skip rfl rfl
  | declaration d =>
    by_cases hd : d.isReference
    · rw [Scan.step, if_pos hd]
      exact h.meet hd
    · rw [Scan.step, if_neg hd]
      refine h.skip ?_ ?_
      · simp [Entry.resolved, Entry.copy?, Entry.declaration?, Declaration.copy?, hd]
      · simp [Body.declarations, Entry.declaration?, sitesOf, hd]

theorem Reached.run (h : Reached o b log done rest s) :
    Reached o b log (done ++ rest) [] (s.run o b) := by
  induction rest generalizing done s with
  | nil =>
    have he : s.body[s.position]? = none := by simp [h.body, h.position]
    rw [Scan.run]
    split
    next => simpa using h
    next hn => rw [he] at hn; contradiction
  | cons e rest ih =>
    have he : s.body[s.position]? = some e := by simp [h.body, h.position]
    rw [Scan.run]
    split
    next hn => rw [he] at hn; contradiction
    next e' hn =>
      obtain rfl : e = e' := Option.some.inj (he.symm.trans hn)
      simpa using ih h.step

end Scan

theorem Body.visit_eq (o : Options) (b : Bindings) (body : Body) (log : List Site) :
    body.visit o b log = (body.resolved o b, log ++ sitesOf b body.declarations) := by
  have h : Scan.Reached o b log [] body ⟨body, 0, log⟩ :=
    ⟨rfl, rfl, by simp [Body.declarations, sitesOf]⟩
  have hr := h.run
  have hb : (Scan.run o b ⟨body, 0, log⟩).body = body.resolved o b := by simpa using hr.body
  rw [← hb, ← List.nil_append body, ← hr.sites]
  rfl

theorem sitesOf_flatMap {α : Type} (b : Bindings) (f : α → List Declaration) (as : List α) :
    sitesOf b (as.flatMap f) = as.flatMap fun a => sitesOf b (f a) := by
  simp [sitesOf, List.filter_flatMap, List.map_flatMap]

namespace Sheet

/-- The sheet whose bodies a run visits. -/
def visited (o : Options) (s : Sheet) : Sheet :=
  (s.pruned o).afterCollection o.overrides o.preserve

/-- A run resolves every entry of the visited sheet on its own. -/
theorem transform_eq (o : Options) (s : Sheet) :
    s.transform o =
      let b := (s.pruned o).bindings o.overrides
      ⟨(s.visited o).mapBodies (Body.resolved o b), b, sitesOf b (s.visited o).declarations⟩ := by
  have hw := (s.visited o).walk_eq (Body.visit_eq o ((s.pruned o).bindings o.overrides)) []
  rw [List.nil_append, ← sitesOf_flatMap] at hw
  unfold transform
  rw [collect_eq]
  change Outcome.mk ((s.visited o).walk _ []).1 _ ((s.visited o).walk _ []).2 = _
  rw [hw]
  rfl

theorem bindings_transform (o : Options) (s : Sheet) :
    (s.transform o).bindings = (s.pruned o).bindings o.overrides :=
  congrArg Outcome.bindings (transform_eq o s)

theorem sites_transform (o : Options) (s : Sheet) :
    (s.transform o).sites =
      (s.visited o).references.map (Declaration.site (s.transform o).bindings) := by
  rw [transform_eq]
  rfl

theorem exists_of_isOk {css : Text} (h : (read css).isOk = true) : ∃ s, read css = .ok s := by
  cases hs : read css with
  | error e => rw [hs] at h; contradiction
  | ok s => exact ⟨s, rfl⟩

/-! ### Integers with too many digits -/

theorem readLimited_eq_ok_iff {css : Text} {s : Sheet} :
    readLimited css = .ok s ↔ longNumber? css = none ∧ read css = .ok s := by
  rw [readLimited]
  cases longNumber? css <;> cases read css <;> simp [Except.mapError]

theorem readLimited_eq_reported_iff {css : Text} {e : ParseError} :
    readLimited css = .error (.reported e) ↔ longNumber? css = none ∧ read css = .error e := by
  rw [readLimited]
  cases longNumber? css <;> cases read css <;> simp [Except.mapError]

end Sheet

theorem transform_of_read {css : Text} {s : Sheet} (o : Options) (h : Sheet.read css = .ok s) :
    (transform o css).result = .ok (s.transform o).sheet.text ∧
      (transform o css).warnings = (s.transform o).warnings := by
  rw [transform, h]
  refine ⟨rfl, ?_⟩
  have hw : ∀ ws : List Warning, (ws.map Event.warned).filterMap Event.warning? = ws := by
    intro ws
    simp [List.filterMap_map, Function.comp_def, Event.warning?]
  change List.filterMap _ ((s.transform o).warnings.map Event.warned ++ [_]) = _
  rw [List.filterMap_append, hw]
  exact List.append_nil _

theorem transformLimited_eq_ok_iff {o : Options} {css out : Text} :
    (transformLimited o css).result = .ok out ↔
      ∃ s, Sheet.readLimited css = .ok s ∧ (s.transform o).sheet.text = out := by
  rw [transformLimited, Sheet.readLimited, transform]
  cases Sheet.longNumber? css <;> cases Sheet.read css <;> simp [Except.mapError]

end CustomProperties
