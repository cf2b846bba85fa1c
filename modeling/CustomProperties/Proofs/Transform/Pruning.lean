import CustomProperties.Proofs.Transform.Run

/-! # Pruning and resolution

Pruning keeps every declaration that defines or uses a custom property, in its place, and a root
rule stays a root rule. So the bindings and the references are the same with and without it.
-/

namespace CustomProperties

/-- A property of declarations that pruning respects. -/
def OfRelated (p : Declaration → Bool) : Prop := ∀ d, p d = true → d.isRelated = true

variable {p q : Declaration → Bool}

namespace Body

theorem mem_declarations {body : Body} {d : Declaration} :
    d ∈ body.declarations ↔ .declaration d ∈ body := by
  rw [declarations, List.mem_filterMap]
  constructor
  · rintro ⟨e, he, hd⟩
    cases e with
    | comment text => contradiction
    | declaration d' => obtain rfl := Option.some.inj hd; exact he
  · intro h
    exact ⟨_, h, rfl⟩

theorem not_of_not_anyRelated (hp : OfRelated p) {body : Body} (h : body.anyRelated = false)
    {d : Declaration} (hd : d ∈ body.declarations) : ¬p d = true := by
  intro hpd
  have he := List.any_eq_false.mp h _ (mem_declarations.mp hd)
  exact he (hp d hpd)

theorem filter_related (hp : OfRelated p) (body : Body) :
    body.related.declarations.filter p = body.declarations.filter p := by
  rw [related, declarations_filter (fun _ => rfl), List.filter_filter]
  refine List.filter_congr fun d _ => ?_
  cases hd : p d with
  | false => rfl
  | true => exact hp d hd

end Body

theorem Stage.body_of_owner? {st : Stage} {o : Rule} (h : st.owner? = some o) :
    o.body = st.body := by
  cases st with
  | keyframe selectors body => obtain rfl := Option.some.inj h; rfl
  | comment text => contradiction

namespace Rule

def selected (p : Declaration → Bool) (r : Rule) : List Declaration := r.declarations.filter p

theorem selected_container (keyword condition : Text) (rules : List Rule) :
    (container keyword condition rules).selected p = rules.flatMap (selected p) := by
  rw [selected, declarations, owners, ownersOf_eq, List.flatMap_assoc, List.filter_flatMap]
  rfl

theorem selected_style (selectors : List Text) (body : Body) :
    (style selectors body).selected p = body.declarations.filter p := by
  rw [selected, declarations, owners, List.flatMap_singleton, Rule.body]

theorem selected_of_isComment {r : Rule} (h : r.isComment = true) : r.selected p = [] := by
  cases r with
  | comment text => rfl
  | _ => contradiction

theorem selected_eq_nil (hp : OfRelated p) {r : Rule}
    (h : ∀ o ∈ r.owners, o.body.anyRelated = false) : r.selected p = [] := by
  rw [selected, List.filter_eq_nil_iff]
  intro d hd
  obtain ⟨o, ho, hd⟩ := List.mem_flatMap.mp hd
  exact Body.not_of_not_anyRelated hp (h o ho) hd

mutual

theorem selected_prune (hp : OfRelated p) (r : Rule) :
    r.prune.toList.flatMap (selected p) = r.selected p := by
  cases r with
  | style selectors body =>
    rw [prune]
    split
    next =>
      rw [Option.toList_some, List.flatMap_singleton, selected_style, selected_style]
      exact Body.filter_related hp body
    next h => exact (selected_eq_nil hp (by simpa [owners, Rule.body] using h)).symm
  | fontFace body =>
    rw [prune]
    split
    next => exact List.flatMap_singleton ..
    next h => exact (selected_eq_nil hp (by simpa [owners, Rule.body] using h)).symm
  | keyframes name vendor stages =>
    rw [prune]
    split
    next => exact List.flatMap_singleton ..
    next h =>
      refine (selected_eq_nil hp fun o ho => ?_).symm
      obtain ⟨st, hst, hso⟩ := List.mem_filterMap.mp ho
      rw [st.body_of_owner? hso]
      exact eq_false_of_ne_true (List.any_eq_false.mp (eq_false_of_ne_true h) st hst)
  | container keyword condition rules =>
    have ih := selected_pruneAll hp rules
    rw [prune, selected_container, ← ih]
    split
    next h =>
      -- the comments that are left have no declarations
      refine (List.flatMap_eq_nil_iff.mpr fun r hr => ?_).symm
      exact selected_of_isComment (List.all_eq_true.mp h r hr)
    next => rw [Option.toList_some, List.flatMap_singleton, selected_container]
  | _ => exact List.flatMap_singleton ..

theorem selected_pruneAll (hp : OfRelated p) (rs : List Rule) :
    (pruneAll rs).flatMap (selected p) = rs.flatMap (selected p) := by
  cases rs with
  | nil => rfl
  | cons r rs =>
    have hr := selected_prune hp r
    have hrs := selected_pruneAll hp rs
    rw [pruneAll, List.flatMap_cons, ← hr, ← hrs]
    cases r.prune <;> simp

end

theorem isRoot_of_prune {r r' : Rule} (h : r.prune = some r') : r'.isRoot = r.isRoot := by
  cases prune_eq_some_iff.mp h <;> rfl

/-- The declarations with one property in a root rule and with another one in any other rule. -/
def selectedByRoot (p q : Declaration → Bool) (r : Rule) : List Declaration :=
  r.selected (if r.isRoot then p else q)

theorem selectedByRoot_prune (hp : OfRelated p) (hq : OfRelated q) (r : Rule) :
    r.prune.toList.flatMap (selectedByRoot p q) = r.selectedByRoot p q := by
  have hs : OfRelated (if r.isRoot then p else q) := by
    split
    · exact hp
    · exact hq
  rw [selectedByRoot, ← selected_prune hs r]
  refine congrArg List.flatten (List.map_congr_left fun r' hr => ?_)
  rw [selectedByRoot, isRoot_of_prune (Option.mem_toList.mp hr)]

theorem definitions_eq (r : Rule) :
    r.definitions = r.selectedByRoot Declaration.isDefinition fun _ => false := by
  have hn (ds : List Declaration) : ds.filter (fun _ => false) = [] := by simp
  rw [definitions, selectedByRoot]
  cases r with
  | style selectors body =>
    rw [selected_style]
    split
    · rfl
    · exact (hn _).symm
  | _ => exact (hn _).symm

theorem selected_dropDefinitions (r : Rule) :
    r.dropDefinitions.selected p = r.selectedByRoot (fun d => p d && !d.isDefinition) p := by
  rw [selectedByRoot]
  cases r with
  | style selectors body =>
    have hr : (style selectors body).isRoot = true ↔ selectors = [rootSelector] := beq_iff_eq
    rw [dropDefinitions, selected_style]
    split
    next hs =>
      rw [if_pos (hr.mpr hs), selected_style, Body.declarations_filter fun _ => rfl,
        List.filter_filter]
      rfl
    next hs =>
      rw [if_neg (mt hr.mp hs)]
      exact selected_style selectors body
  | _ => rfl

end Rule

namespace Sheet

theorem flatMap_prune {f : Rule → List Declaration}
    (hf : ∀ r, r.prune.toList.flatMap f = f r) (s : Sheet) : s.prune.flatMap f = s.flatMap f := by
  rw [prune, List.filterMap_eq_flatMap_toList, List.flatMap_assoc]
  exact congrArg List.flatten (List.map_congr_left fun r _ => hf r)

theorem definitions_prune (s : Sheet) : s.prune.definitions = s.definitions := by
  refine flatMap_prune (fun r => ?_) s
  have hd : OfRelated Declaration.isDefinition := fun d h => by simp [Declaration.isRelated, h]
  rw [funext Rule.definitions_eq]
  exact r.selectedByRoot_prune hd fun _ h => absurd h Bool.false_ne_true

theorem bindings_prune (overrides : Bindings) (s : Sheet) :
    s.prune.bindings overrides = s.bindings overrides := by
  rw [bindings, bindings, definitions_prune]

theorem definitions_pruned (o : Options) (s : Sheet) : (s.pruned o).definitions = s.definitions := by
  unfold pruned
  split
  · exact s.definitions_prune
  · rfl

theorem bindings_pruned (o : Options) (overrides : Bindings) (s : Sheet) :
    (s.pruned o).bindings overrides = s.bindings overrides := by
  rw [bindings, bindings, definitions_pruned]

theorem references_eq (s : Sheet) :
    s.references = s.flatMap (Rule.selected Declaration.isReference) := by
  rw [references, declarations_eq, List.filter_flatMap]
  rfl

theorem references_prune (s : Sheet) : s.prune.references = s.references := by
  have hr : OfRelated Declaration.isReference := fun d h => by simp [Declaration.isRelated, h]
  rw [references_eq, references_eq]
  exact flatMap_prune (fun r => r.selected_prune hr) s

theorem references_dropDefinitions_prune (s : Sheet) :
    references (s.prune.map Rule.dropDefinitions) = references (s.map Rule.dropDefinitions) := by
  have hr : OfRelated Declaration.isReference := fun d h => by simp [Declaration.isRelated, h]
  have hd : OfRelated fun d => d.isReference && !d.isDefinition := fun d h =>
    hr d (Bool.and_eq_true_iff.mp h).1
  have hs : (fun r : Rule => r.dropDefinitions.selected Declaration.isReference) = _ :=
    funext Rule.selected_dropDefinitions
  rw [references_eq, references_eq, List.flatMap_map, List.flatMap_map, hs]
  exact flatMap_prune (fun r => r.selectedByRoot_prune hd hr) s

theorem references_afterCollection_prune (overrides : Bindings) (preserve : Bool) (s : Sheet) :
    (s.prune.afterCollection overrides preserve).references =
      (s.afterCollection overrides preserve).references := by
  unfold afterCollection
  split
  · split
    · exact references_prune s
    · rw [references_append, references_append, references_prune]
  · exact references_dropDefinitions_prune s

end Sheet

variable {css : Text} {s : Sheet}

/-- Pruning changes neither what is collected nor what is resolved to what, in document order, nor
the warnings. -/
theorem transform_pruned_agrees (h : Sheet.read css = .ok s) (o : Options) :
    let oP := { o with onlyVariables := true }
    let oW := { o with onlyVariables := false }
    let b := (s.transform oW).bindings
    (s.transform oP).bindings = b ∧
      (s.transform oP).sites = (s.transform oW).sites ∧
      (s.transform oP).sites = (s.visited oP).references.map (Declaration.site b) ∧
      (s.transform oW).sites = (s.visited oW).references.map (Declaration.site b) ∧
      (transform oP css).warnings = (transform oW css).warnings := by
  intro oP oW b
  have hb : (s.transform oP).bindings = b := by
    rw [Sheet.bindings_transform]
    exact (s.bindings_prune o.overrides).trans (Sheet.bindings_transform oW s).symm
  have hp := Sheet.sites_transform oP s
  have hw := Sheet.sites_transform oW s
  have hr : (s.visited oP).references = (s.visited oW).references :=
    s.references_afterCollection_prune o.overrides o.preserve
  rw [hb] at hp
  have hs : (s.transform oP).sites = (s.transform oW).sites := by rw [hp, hw, hr]
  refine ⟨hb, hs, hp, hw, ?_⟩
  rw [(transform_of_read oP h).2, (transform_of_read oW h).2, Outcome.warnings, hs]
  rfl

/-- Where pruning empties a container, drops a rule and keeps a font face whole. -/
theorem transform_pruned_agrees_on_font_face :
    let o : Options := { preserve := false }
    let css : Text := ":root" ++ inBraces "top:0;--a:1px" ++ "p" ++ inBraces "left:0" ++
      "@media print" ++ inBraces ("/**/" ++ "p" ++ inBraces "left:0") ++
      "@font-face" ++ inBraces "src:var(--u);font-family:f"
    ∃ s, Sheet.read css = .ok s ∧
      (transform { o with onlyVariables := true } css).result =
        .ok ("@font-face" ++ inBraces "src:var(--u);font-family:f") ∧
      (transform { o with onlyVariables := false } css).result =
        .ok (":root" ++ inBraces "top:0" ++ "p" ++ inBraces "left:0" ++
          "@media print" ++ inBraces ("/**/" ++ "p" ++ inBraces "left:0") ++
          "@font-face" ++ inBraces "src:var(--u);font-family:f") ∧
      (s.transform { o with onlyVariables := true }).sites =
        (s.transform { o with onlyVariables := false }).sites := by
  intro o css
  have hok : (Sheet.read css).isOk = true := by decide +kernel
  obtain ⟨s, h⟩ := Sheet.exists_of_isOk hok
  exact ⟨s, h, by decide +kernel, by decide +kernel, (transform_pruned_agrees h o).2.1⟩

end CustomProperties
