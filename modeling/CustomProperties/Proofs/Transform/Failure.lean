import CustomProperties.Proofs.Calc.Located
import CustomProperties.Proofs.Resolution.Located
import CustomProperties.Proofs.Sheet.Writable

/-! # Runs that may fail

A run locates groups by their positions, deletes definitions by theirs and writes the tree that it
ends with. Each of these steps may fail on its own, and here they do. The run with these failures
agrees with the one without, so only a text that cannot be read makes it fail. No step stands for a
handler of warnings: it belongs to the caller, and is assumed to return.
-/

namespace CustomProperties

inductive RunError
  | parse (error : ParseError)
  | group (missing : Parens.Missing)
  | erase (position : Nat)
  | write (error : Sheet.WriteError)
  deriving DecidableEq, Repr

/-! ### Collecting -/

namespace Body

def tryErase (position : Nat) (body : Body) : Except RunError Body :=
  if position < body.length then .ok (body.eraseIdx position) else .error (.erase position)

/-- Delete the entries at rising positions, the last one first. -/
def tryEraseAll (positions : List Nat) (body : Body) : Except RunError Body :=
  positions.foldr (fun i body => body.bind (tryErase i)) (.ok body)

theorem tryEraseAll_positionsFrom (before body : Body) :
    tryEraseAll (positionsFrom before.length body) (before ++ body) =
      .ok (before ++ body.filter (!·.isDefinition)) := by
  induction body generalizing before with
  | nil => simp [positionsFrom, tryEraseAll]
  | cons e body ih =>
    have hs := ih (before ++ [e])
    rw [List.length_append, List.length_singleton, List.append_assoc, List.singleton_append] at hs
    rw [positionsFrom_cons]
    split
    next he =>
      change (tryEraseAll (positionsFrom (before.length + 1) body) _).bind
        (tryErase before.length) = _
      rw [hs]
      simp [Except.bind, tryErase, he, List.eraseIdx_append_of_length_le]
    next he => simp [hs, he]

end Body

def Rule.tryCollect (preserve : Bool) : Rule → StateT Bindings (Except RunError) Rule
  | style selectors body => fun b =>
    if selectors = [rootSelector] then
      let (b, consumed) := Body.consume b body
      (if preserve then .ok body else Body.tryEraseAll consumed body).map fun body =>
        (style selectors body, b)
    else .ok (style selectors body, b)
  | r => return r

theorem Rule.tryCollect_eq (preserve : Bool) (r : Rule) (b : Bindings) :
    r.tryCollect preserve b = .ok (r.collect preserve b) := by
  cases r with
  | style selectors body =>
    have he := Body.eraseAll_positionsFrom [] body
    have ht := Body.tryEraseAll_positionsFrom [] body
    rw [List.length_nil, List.nil_append, List.nil_append] at he ht
    unfold tryCollect collect
    dsimp only
    split
    next =>
      rw [Body.consume_eq]
      cases preserve
      · simp [he, ht, Except.map]
      · rfl
    next => rfl
  | _ => rfl

def Sheet.tryCollect (s : Sheet) (overrides : Bindings) (preserve : Bool) :
    Except RunError Collected :=
  ((s.mapM (Rule.tryCollect preserve)).run .empty).map fun (rules, b) =>
    if overrides.isEmpty then ⟨b, rules⟩
    else
      let (b, body) := overrides.entries.foldl collectOverride (b, [])
      ⟨b, if preserve then rules ++ [.root body] else rules⟩

theorem mapM_eq_ok {α β σ ε : Type} {step : α → StateM σ β} {tryStep : α → StateT σ (Except ε) β}
    (h : ∀ a s, tryStep a s = .ok (step a s)) (as : List α) (s : σ) :
    as.mapM tryStep s = .ok (as.mapM step s) := by
  induction as generalizing s with
  | nil => rw [List.mapM_nil, List.mapM_nil]; rfl
  | cons a as ih =>
    rw [List.mapM_cons, List.mapM_cons]
    change (tryStep a s).bind (fun (b, s) =>
      (as.mapM tryStep s).bind fun (bs, s) => .ok (b :: bs, s)) = _
    rw [h]
    change (as.mapM tryStep (step a s).2).bind _ = _
    rw [ih]
    rfl

theorem Sheet.tryCollect_eq (s : Sheet) (overrides : Bindings) (preserve : Bool) :
    s.tryCollect overrides preserve = .ok (s.collect overrides preserve) := by
  have hm := mapM_eq_ok (Rule.tryCollect_eq preserve) s .empty
  rw [tryCollect, StateT.run, hm]
  rfl

/-! ### Resolving -/

def Declaration.trySite (b : Bindings) (d : Declaration) : Except RunError Site :=
  ((Resolution.resolveAt b [] d.value 0).mapError .group).map fun resolution => ⟨d, resolution⟩

theorem Declaration.trySite_eq (b : Bindings) (d : Declaration) : d.trySite b = .ok (d.site b) := by
  rw [trySite, Resolution.resolveAt_eq]
  rfl

def Site.tryResolved (fixNestedCalc : Bool) (s : Site) : Except RunError Declaration :=
  (if fixNestedCalc then (Calc.flattenAt s.resolution.text 0).mapError .group
    else .ok s.resolution.text).map fun value => { s.declaration with value }

theorem Site.tryResolved_eq (fixNestedCalc : Bool) (s : Site) :
    s.tryResolved fixNestedCalc = .ok (s.resolved fixNestedCalc) := by
  rw [tryResolved, Calc.flattenAt_eq]
  cases fixNestedCalc <;> rfl

namespace Scan

/-- The copy of a preserved declaration is stepped over. -/
def tryMeet (o : Options) (site : Site) (s : Scan) : Except RunError Scan :=
  let sites := s.sites ++ [site]
  if !site.changes then .ok { s.skip with sites }
  else
    (site.tryResolved o.fixNestedCalc).map fun copy =>
      if o.preserve then
        ⟨s.body.insertIdx (s.position + 1) (.declaration copy), s.position + 2, sites⟩
      else ⟨s.body.set s.position (.declaration copy), s.position + 1, sites⟩

theorem tryMeet_eq (o : Options) (site : Site) (s : Scan) :
    s.tryMeet o site = .ok (s.meet o site) := by
  unfold tryMeet meet
  rw [Site.tryResolved_eq]
  dsimp only
  split
  next => rfl
  next => rfl

def tryStep (o : Options) (b : Bindings) (s : Scan) : Entry → Except RunError Scan
  | .comment _ => .ok s.skip
  | .declaration d =>
    if d.isReference then (d.trySite b).bind fun site => s.tryMeet o site else .ok s.skip

theorem tryStep_eq (o : Options) (b : Bindings) (s : Scan) (e : Entry) :
    s.tryStep o b e = .ok (s.step o b e) := by
  cases e with
  | comment text => rfl
  | declaration d =>
    unfold tryStep step
    dsimp only
    split
    next =>
      rw [Declaration.trySite_eq]
      exact tryMeet_eq o _ s
    next => rfl

def tryRun (o : Options) (b : Bindings) (s : Scan) : Except RunError Scan :=
  match _ : s.body[s.position]? with
  | none => .ok s
  | some e =>
    match _ : s.tryStep o b e with
    | .error err => .error err
    | .ok s' => s'.tryRun o b
termination_by s.left
decreasing_by
  have hs := left_step_lt (List.getElem?_eq_some_iff.mp ‹_›).1 o b e
  have he := (s.tryStep_eq o b e).symm.trans ‹_›
  exact Except.ok.inj he ▸ hs

theorem tryRun_eq (o : Options) (b : Bindings) (s : Scan) : s.tryRun o b = .ok (s.run o b) := by
  fun_induction tryRun o b s with
  | case1 s hn =>
    rw [run]
    split
    next => rfl
    next hs => rw [hn] at hs; contradiction
  | case2 s e he err hs => rw [tryStep_eq] at hs; contradiction
  | case3 s e he s' hs ih =>
    rw [tryStep_eq] at hs
    obtain rfl := Except.ok.inj hs
    rw [ih, run.eq_def o b s]
    split
    next hn => rw [he] at hn; contradiction
    next e' hs =>
      obtain rfl : e = e' := Option.some.inj (he.symm.trans hs)
      rfl

end Scan

def Body.tryVisit (o : Options) (b : Bindings) (body : Body) :
    StateT (List Site) (Except RunError) Body := fun sites =>
  (Scan.tryRun o b ⟨body, 0, sites⟩).map fun s => (s.body, s.sites)

theorem Body.tryVisit_eq (o : Options) (b : Bindings) (body : Body) (sites : List Site) :
    body.tryVisit o b sites = .ok (body.visit o b sites) := by
  rw [tryVisit, Scan.tryRun_eq]
  rfl

section Walk

variable {σ ε : Type} (tryVisit : Body → StateT σ (Except ε) Body)

def Stage.tryWalk : Stage → StateT σ (Except ε) Stage
  | keyframe selectors body => return keyframe selectors (← tryVisit body)
  | comment text => return comment text

namespace Rule

mutual

def tryWalk : Rule → StateT σ (Except ε) Rule
  | container keyword condition rules => return container keyword condition (← tryWalkAll rules)
  | keyframes name vendor stages =>
    return keyframes name vendor (← stages.mapM (Stage.tryWalk tryVisit))
  | style selectors body => return style selectors (← tryVisit body)
  | fontFace body => return fontFace (← tryVisit body)
  | keyframe selectors body => return keyframe selectors body
  | comment text => return comment text
  | unknown raw => return unknown raw

def tryWalkAll : List Rule → StateT σ (Except ε) (List Rule)
  | [] => return []
  | r :: rs => return (← r.tryWalk) :: (← tryWalkAll rs)

end

end Rule

variable {tryVisit} {visit : Body → StateM σ Body}

theorem Stage.tryWalk_eq (h : ∀ body s, tryVisit body s = .ok (visit body s)) (st : Stage) (s : σ) :
    st.tryWalk tryVisit s = .ok (st.walk visit s) := by
  cases st with
  | keyframe selectors body =>
    change (tryVisit body s).bind (fun (body, s) => .ok (keyframe selectors body, s)) = _
    rw [h]
    rfl
  | comment text => rfl

namespace Rule

mutual

theorem tryWalk_eq (h : ∀ body s, tryVisit body s = .ok (visit body s)) (r : Rule) (s : σ) :
    r.tryWalk tryVisit s = .ok (r.walk visit s) := by
  cases r with
  | container keyword condition rules =>
    rw [tryWalk, walk]
    change (tryWalkAll tryVisit rules s).bind
      (fun (rules, s) => .ok (container keyword condition rules, s)) = _
    rw [tryWalkAll_eq h rules s]
    rfl
  | keyframes name vendor stages =>
    rw [tryWalk, walk]
    change (stages.mapM (Stage.tryWalk tryVisit) s).bind
      (fun (stages, s) => .ok (keyframes name vendor stages, s)) = _
    rw [mapM_eq_ok (Stage.tryWalk_eq h)]
    rfl
  | style selectors body =>
    rw [tryWalk, walk]
    change (tryVisit body s).bind (fun (body, s) => .ok (style selectors body, s)) = _
    rw [h]
    rfl
  | fontFace body =>
    rw [tryWalk, walk]
    change (tryVisit body s).bind (fun (body, s) => .ok (fontFace body, s)) = _
    rw [h]
    rfl
  | _ => rw [tryWalk, walk]; rfl

theorem tryWalkAll_eq (h : ∀ body s, tryVisit body s = .ok (visit body s)) (rs : List Rule)
    (s : σ) : tryWalkAll tryVisit rs s = .ok (walkAll visit rs s) := by
  cases rs with
  | nil => rw [tryWalkAll, walkAll]; rfl
  | cons r rs =>
    rw [tryWalkAll, walkAll]
    change (r.tryWalk tryVisit s).bind (fun (r, s) =>
      (tryWalkAll tryVisit rs s).bind fun (rs, s) => .ok (r :: rs, s)) = _
    rw [tryWalk_eq h r s]
    change (tryWalkAll tryVisit rs (r.walk visit s).2).bind _ = _
    rw [tryWalkAll_eq h rs]
    rfl

end

end Rule

end Walk

/-! ### Running -/

def Sheet.tryTransform (o : Options) (s : Sheet) : Except RunError Outcome :=
  ((s.pruned o).tryCollect o.overrides o.preserve).bind fun collected =>
    ((Rule.tryWalkAll (Body.tryVisit o collected.bindings) collected.sheet).run []).map
      fun (sheet, sites) => ⟨sheet, collected.bindings, sites⟩

theorem Sheet.tryTransform_eq (o : Options) (s : Sheet) :
    s.tryTransform o = .ok (s.transform o) := by
  let collected := (s.pruned o).collect o.overrides o.preserve
  have hw := Rule.tryWalkAll_eq (Body.tryVisit_eq o collected.bindings) collected.sheet []
  rw [tryTransform, tryCollect_eq]
  dsimp only [Except.bind, StateT.run]
  rw [hw]
  rfl

/-- Transform the text of a sheet, where every step may fail. -/
def tryTransform (o : Options) (css : Text) : Except RunError Text :=
  ((Sheet.read css).mapError .parse).bind fun s =>
    (s.tryTransform o).bind fun out => out.sheet.write.mapError .write

theorem tryTransform_eq (o : Options) (css : Text) :
    tryTransform o css = (transform o css).result.mapError .parse := by
  rw [tryTransform, transform]
  cases hr : Sheet.read css with
  | error e => rfl
  | ok s =>
    have hw := ((Sheet.Produced.read hr).transform o).writable.write_eq
    dsimp only [Except.mapError, Except.bind]
    rw [Sheet.tryTransform_eq]
    dsimp only
    rw [hw]

section Run

variable {o : Options} {css : Text} {e : ParseError}

theorem result_eq_error_iff : (transform o css).result = .error e ↔ Sheet.read css = .error e := by
  rw [transform]
  cases Sheet.read css with
  | error e' => rw [Except.error.injEq, Except.error.injEq]
  | ok s => constructor <;> intro h <;> contradiction

theorem tryTransform_eq_error_iff {err : RunError} :
    tryTransform o css = .error err ↔ ∃ e, err = .parse e ∧ Sheet.read css = .error e := by
  rw [tryTransform_eq]
  constructor
  · intro h
    cases hr : (transform o css).result with
    | error e =>
      rw [hr, Except.mapError, Except.error.injEq] at h
      exact ⟨e, h.symm, result_eq_error_iff.mp hr⟩
    | ok out => rw [hr] at h; contradiction
  · rintro ⟨e, rfl, he⟩
    rw [result_eq_error_iff.mpr he]
    rfl

theorem transformLimited_eq_error_iff {u : Sheet.Unread} :
    (transformLimited o css).result = .error u ↔ Sheet.readLimited css = .error u := by
  rw [transformLimited, Sheet.readLimited, transform]
  cases Sheet.longNumber? css with
  | some number => simp
  | none => cases Sheet.read css <;> simp [Except.mapError]

end Run

/-- A run fails on a text only if the text cannot be read, and then with the error of reading it,
whether integers have a limit or not. No group is missing, whatever is resolved under whatever
variables or flattened, and every sheet that a pass produces can be written. -/
theorem transform_fails_only_on_reading (o : Options) (css : Text) :
    tryTransform o css = (transform o css).result.mapError .parse ∧
      (∀ err, tryTransform o css = .error err ↔
        ∃ e, err = .parse e ∧ Sheet.read css = .error e) ∧
      (∀ e, (transform o css).result = .error e ↔ Sheet.read css = .error e) ∧
      (∀ u, (transformLimited o css).result = .error u ↔ Sheet.readLimited css = .error u) ∧
      (∀ b value, Resolution.resolveAt b [] value 0 = .ok (resolve b value)) ∧
      (∀ value, Calc.flattenAt value 0 = .ok (Calc.flatten value)) ∧
      ∀ s : Sheet, s.Produced → s.write = .ok s.text :=
  ⟨tryTransform_eq o css, fun _ => tryTransform_eq_error_iff, fun _ => result_eq_error_iff,
    fun _ => transformLimited_eq_error_iff, fun b value => Resolution.resolveAt_eq b [] value 0,
    fun value => Calc.flattenAt_eq value 0, fun _ hs => hs.writable.write_eq⟩

/-- A variable that opens groups and never closes them, and a rule that cannot be read. -/
theorem transform_fails_only_on_reading_of_open_groups :
    let o : Options := { overrides := .ofList [("x", "calc(calc(")], preserve := false }
    let css : Text := "a" ++ inBraces "b:calc(1 + var(--x))"
    let s : Sheet := [.style ["a"] [.declaration ⟨"b", "calc(1 + var(--x))"⟩]]
    let e : ParseError :=
      ⟨"EOF reached before \x7b\x7d block for a qualified rule.", some 1, some 1, "b"⟩
    (Sheet.read css = .ok s ∧ Sheet.read "b" = .error e) ∧
      tryTransform o css = .ok ("a" ++ inBraces "b:calc(1 + (()") ∧
      tryTransform o "b" = .error (.parse e) ∧ s.write = .ok css := by
  intro o css s e
  have hr : Sheet.read css = .ok s := by decide +kernel
  have he : Sheet.read "b" = .error e := by decide +kernel
  obtain ⟨hok, -, -, -, -, -, hw⟩ := transform_fails_only_on_reading o css
  refine ⟨⟨hr, he⟩, hok.trans ?_,
    ((transform_fails_only_on_reading o "b").2.1 _).mpr ⟨e, rfl, he⟩, (hw s (.read hr)).trans ?_⟩
  · decide +kernel
  · decide +kernel

end CustomProperties
