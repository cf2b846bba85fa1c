import CustomProperties.Proofs.Calc.Contained
import CustomProperties.Proofs.Resolution.Contained
import CustomProperties.Proofs.Sheet.ContainedValues
import CustomProperties.Proofs.Sheet.TidyRules
import CustomProperties.Proofs.Transform.Modes

/-! # Written runs are read

Pruning, collecting and resolving keep the parts of a sheet spelled, as long as every value that
they write is. So what a run writes is read again, if what it puts in the place of references is
contained. A block or a semicolon in a definition breaks the declaration that refers to it.
-/

namespace CustomProperties

open Syntax
open Sheet (Spells SpellsPrelude SpellsValue SpellsDeclaration SpellsBody SpellsStage SpellsRule)

variable {o : Options} {b : Bindings} {whole : Bool}

/-! ### Passes over spelled rules -/

theorem Sheet.SpellsBody.of_subset {body body' : Body} (h : SpellsBody False body)
    (hs : body' ⊆ body) : SpellsBody False body' :=
  ⟨fun d hd => h.declarations d (hs hd), fun t ht => h.comments t (hs ht), nofun⟩

theorem spellsRule_style {selectors : List Text} {body body' : Body}
    (h : body.any Entry.isDeclaration = true → Spells (Sheet.closerOfRules whole)
      (commaSeparated selectors) (SpellsPrelude False whole (commaSeparated selectors)) ∧
        SpellsBody False body)
    (hs : body' ⊆ body) : SpellsRule False whole (.style selectors body') := by
  refine .style fun hd => ?_
  obtain ⟨e, he, hde⟩ := List.any_eq_true.mp hd
  obtain ⟨hsel, hb⟩ := h (List.any_eq_true.mpr ⟨e, hs he, hde⟩)
  exact ⟨hsel, hb.of_subset hs⟩

theorem Sheet.SpellsRule.prune {r : Rule} (h : SpellsRule False whole r) :
    ∀ kept ∈ r.prune, SpellsRule False whole kept := by
  intro kept hk
  induction h generalizing kept with
  | comment ht =>
    cases Rule.prune_eq_some_iff.mp hk
    exact .comment ht
  | style hs =>
    cases Rule.prune_eq_some_iff.mp hk
    exact spellsRule_style hs (List.filter_subset_self _)
  | fontFace hb =>
    cases Rule.prune_eq_some_iff.mp hk
    exact .fontFace hb
  | keyframes hv hw hr hc hst =>
    cases Rule.prune_eq_some_iff.mp hk
    exact .keyframes hv hw hr hc hst
  | container hc hw hne hl hr hcond _ ih =>
    cases Rule.prune_eq_some_iff.mp hk
    refine .container hc hw hne hl hr hcond fun r hm => ?_
    rw [Rule.pruneAll_eq, List.mem_filterMap] at hm
    obtain ⟨r', hm, hp⟩ := hm
    exact ih r' hm r hp
  | unknown hs hr =>
    cases Rule.prune_eq_some_iff.mp hk
    exact .unknown hs hr

theorem Sheet.SpellsRule.dropDefinitions {r : Rule} (h : SpellsRule False whole r) :
    SpellsRule False whole r.dropDefinitions := by
  cases h with
  | @style _ selectors body hs =>
    rw [Rule.dropDefinitions]
    split
    next => exact spellsRule_style hs (List.filter_subset_self _)
    next => exact .style hs
  | comment ht => exact .comment ht
  | fontFace hb => exact .fontFace hb
  | keyframes hv hw hr hc hst => exact .keyframes hv hw hr hc hst
  | container hk hw hne hl hr hc hrs => exact .container hk hw hne hl hr hc hrs
  | unknown hs hr => exact .unknown hs hr

def CopiesSpelled (fix : Bool) (b : Bindings) (ds : List Declaration) : Prop :=
  ∀ d ∈ ds, ∀ copy ∈ d.copy? fix b, Spells (some .curly) copy.value (SpellsValue False copy.value)

theorem Body.mem_resolved {body : Body} {e : Entry} (h : e ∈ body.resolved o b) :
    e ∈ body ∨ ∃ d ∈ body.declarations, ∃ copy ∈ d.copy? o.fixNestedCalc b,
      e = .declaration copy := by
  obtain ⟨e', he', hm⟩ := List.mem_flatMap.mp h
  have hcopy {copy : Entry} (hc : e'.copy? o.fixNestedCalc b = some copy) :
      ∃ d ∈ body.declarations, ∃ c ∈ d.copy? o.fixNestedCalc b, copy = .declaration c := by
    obtain ⟨c, hb, rfl⟩ := Option.map_eq_some_iff.mp hc
    obtain ⟨d, hd, hdc⟩ := Option.bind_eq_some_iff.mp hb
    exact ⟨d, List.mem_filterMap.mpr ⟨e', he', hd⟩, c, hdc, rfl⟩
  unfold Entry.resolved at hm
  split at hm
  next => exact .inl (List.mem_singleton.mp hm ▸ he')
  next copy hc =>
    split at hm
    next =>
      rcases List.mem_cons.mp hm with rfl | hm
      · exact .inl he'
      · exact .inr (List.mem_singleton.mp hm ▸ hcopy hc)
    next => exact .inr (List.mem_singleton.mp hm ▸ hcopy hc)

theorem Body.any_of_resolved {body : Body}
    (h : (body.resolved o b).any Entry.isDeclaration = true) : body.any Entry.isDeclaration = true := by
  obtain ⟨e, he, hd⟩ := List.any_eq_true.mp h
  rcases Body.mem_resolved he with hm | ⟨d, hm, -⟩
  · exact List.any_eq_true.mpr ⟨e, hm, hd⟩
  · obtain ⟨e', he', hd'⟩ := List.mem_filterMap.mp hm
    exact List.any_eq_true.mpr ⟨e', he', by rw [Entry.isDeclaration, hd']; rfl⟩

theorem Sheet.SpellsBody.resolved {body : Body} (h : SpellsBody False body)
    (hc : CopiesSpelled o.fixNestedCalc b body.declarations) :
    SpellsBody False (body.resolved o b) := by
  refine ⟨fun d hd => ?_, fun t ht => ?_, nofun⟩
  · rcases Body.mem_resolved hd with hm | ⟨d', hm, copy, hcopy, he⟩
    · exact h.declarations d hm
    · cases he
      obtain ⟨e, he, hde⟩ := List.mem_filterMap.mp hm
      cases e with
      | comment t => contradiction
      | declaration d'' =>
        obtain rfl := Option.some.inj hde
        have hd' := h.declarations _ he
        have hp := Declaration.copy?_property hcopy
        exact ⟨hp ▸ hd'.standard, hp ▸ hd'.name, hp ▸ hd'.nonempty, hc _ hm d hcopy⟩
  · rcases Body.mem_resolved ht with hm | ⟨_, _, _, _, he⟩
    · exact h.comments t hm
    · contradiction

theorem CopiesSpelled.subset {fix : Bool} {ds ds' : List Declaration} (h : CopiesSpelled fix b ds)
    (hs : ds' ⊆ ds) : CopiesSpelled fix b ds' := fun d hd => h d (hs hd)

theorem Sheet.SpellsRule.resolved {r : Rule} (h : SpellsRule False whole r)
    (hc : CopiesSpelled o.fixNestedCalc b r.declarations) :
    SpellsRule False whole (r.mapBodies (Body.resolved o b)) := by
  induction h with
  | comment ht => exact .comment ht
  | style hs =>
    rw [Rule.declarations_style] at hc
    refine .style fun hd => ?_
    obtain ⟨hsel, hb⟩ := hs (Body.any_of_resolved hd)
    exact ⟨hsel, hb.resolved hc⟩
  | fontFace hb =>
    rw [Rule.declarations_fontFace] at hc
    exact .fontFace (hb.resolved hc)
  | keyframes hv hw hr hcond hst =>
    rw [Rule.declarations_keyframes] at hc
    refine .keyframes hv hw hr hcond fun st hm => ?_
    obtain ⟨st', hm', rfl⟩ := List.mem_map.mp hm
    have hc' := hc.subset fun d hd => List.mem_flatMap.mpr ⟨st', hm', hd⟩
    cases hst st' hm' with
    | comment ht => exact .comment ht
    | keyframe hsel hb => exact .keyframe hsel (hb.resolved hc')
  | container hk hw hne hl hr hcond _ ih =>
    rw [Rule.declarations_container] at hc
    refine .container hk hw hne hl hr hcond fun r hm => ?_
    rw [Rule.mapBodiesOf_eq] at hm
    obtain ⟨r', hm', rfl⟩ := List.mem_map.mp hm
    exact ih r' hm' (hc.subset fun d hd => List.mem_flatMap.mpr ⟨r', hm', hd⟩)
  | unknown hs hr => exact .unknown hs hr

namespace Sheet

variable {s : Sheet}

theorem spells_visited (h : ∀ r ∈ s, SpellsRule False true r) (ho : o.overrides.isEmpty = true) :
    ∀ r ∈ s.visited o, SpellsRule False true r := by
  have hp : ∀ r ∈ s.pruned o, SpellsRule False true r := by
    unfold pruned
    split
    next =>
      intro r hr
      obtain ⟨r', hm, hk⟩ := List.mem_filterMap.mp hr
      exact (h r' hm).prune r hk
    next => exact h
  unfold visited afterCollection
  rw [ho]
  split
  next => exact hp
  next =>
    intro r hr
    obtain ⟨r', hm, rfl⟩ := List.mem_map.mp hr
    exact (hp r' hm).dropDefinitions

theorem spells_transform (h : ∀ r ∈ s, SpellsRule False true r) (ho : o.overrides.isEmpty = true)
    (hc : CopiesSpelled o.fixNestedCalc (s.transform o).bindings (s.visited o).declarations) :
    ∀ r ∈ (s.transform o).sheet, SpellsRule False true r := by
  rw [bindings_transform] at hc
  rw [transform_eq]
  intro r hr
  obtain ⟨r', hm, rfl⟩ := List.mem_map.mp hr
  refine (spells_visited h ho r' hm).resolved (hc.subset ?_)
  rw [declarations_eq]
  exact fun d hd => List.mem_flatMap.mpr ⟨r', hm, hd⟩

end Sheet

/-! ### Contained values -/

/-- The value is contained around its references, and so is every text that is put in their
place. -/
def Declaration.isContained (marks : Bool) (b : Bindings) (d : Declaration) : Bool :=
  (Reader.initial.runAround? marks d.value).any (·.isFinal) &&
    (Resolution.ingredients b [] d.value).all (Resolution.isContained marks)

/-- The copy of a contained declaration is read to its end, like the declaration itself. -/
theorem Declaration.exists_run?_copy {marks fix : Bool} {d copy : Declaration}
    (h : d.isContained marks b = true) (hc : d.copy? fix b = some copy) :
    ∃ s r, Reader.initial.runAround? marks d.value = some s ∧ s.isFinal = true ∧
      Reader.initial.run? marks copy.value = some r ∧ r.isFinal = true ∧ r.mode = s.mode := by
  rw [isContained, Bool.and_eq_true, Option.any_eq_true, List.all_eq_true] at h
  obtain ⟨⟨s, hs, hf⟩, hi⟩ := h
  obtain ⟨r, hr, hb, hm⟩ :=
    ((Resolution.derives_resolveFrom b [] d.value d.value).agrees hi).exists_run? hs
  refine ⟨s, r, hs, hf, ?_, ?_, hm⟩
  · simp only [copy?, Option.ite_none_right_eq_some, Option.some.injEq] at hc
    obtain ⟨-, rfl⟩ := hc
    cases fix with
    | false => exact hr
    | true => exact Calc.run?_flatten hr
  · rw [Reader.isFinal, hb, hm]
    exact hf

theorem Declaration.changes_of_copy? {fix : Bool} {d copy : Declaration}
    (h : d.copy? fix b = some copy) : d.isReference = true ∧ (d.site b).changes = true := by
  simp only [copy?, Option.ite_none_right_eq_some] at h
  exact ⟨h.1.1, bne_iff_ne.mpr h.1.2⟩

namespace Sheet

variable {css : Text} {s : Sheet}

theorem isContained_of_copy? {marks : Bool}
    (hc : ∀ site ∈ (s.transform o).sites, site.changes = true →
      site.declaration.isContained marks (s.transform o).bindings = true)
    {d copy : Declaration} (hd : d ∈ (s.visited o).declarations)
    (h : d.copy? o.fixNestedCalc (s.transform o).bindings = some copy) :
    d.isContained marks (s.transform o).bindings = true := by
  obtain ⟨hr, hchange⟩ := Declaration.changes_of_copy? h
  refine hc (d.site _) ?_ hchange
  rw [sites_transform]
  exact List.mem_map_of_mem (List.mem_filter.mpr ⟨hd, hr⟩)

theorem spells_of_read (hread : Sheet.read css = .ok s)
    (htidy : Node.areTidy (Node.readAll (standardize css)) = true)
    (hpreludes : ∀ prelude ∈ preludes true (Node.readAll (standardize css)), Listed prelude)
    (hnames : ∀ d ∈ s.declarations, writeIdent d.property = d.property) :
    ∀ r ∈ s, SpellsRule False true r := by
  have hnodes : Node.Tidied none (Node.readAll (standardize css)) :=
    ⟨htidy, _, _, Node.parses_readAll _, isStandard_standardize css⟩
  refine spellsRules_of_settledIf ⟨hnodes, hpreludes⟩ (readsRules_of_read hread) fun r hr => ?_
  exact ⟨fun d hd => hnames d (List.mem_flatMap.mpr ⟨r, hr, hd⟩), nofun⟩

end Sheet

/-- What a run writes is read again. The source is tidy, the commas of its preludes are plain and
its properties are named without escapes, there are no overrides, and what is put in the place of
references is contained. -/
theorem transform_reads_again {css : Text} {s : Sheet} (o : Options)
    (hread : Sheet.read css = .ok s) (ho : o.overrides.isEmpty = true)
    (htidy : Node.areTidy (Node.readAll (standardize css)) = true)
    (hpreludes : ∀ prelude ∈ Sheet.preludes true (Node.readAll (standardize css)),
      Sheet.Listed prelude)
    (hnames : ∀ d ∈ s.declarations, writeIdent d.property = d.property)
    (hcontained : ∀ site ∈ (s.transform o).sites, site.changes = true →
      site.declaration.isContained false (s.transform o).bindings = true) :
    ∃ out s', (transform o css).result = .ok out ∧ Sheet.read out = .ok s' := by
  have hcopies : CopiesSpelled o.fixNestedCalc (s.transform o).bindings
      (s.visited o).declarations := fun d hd copy hcopy => by
    have hc := Sheet.isContained_of_copy? hcontained hd hcopy
    obtain ⟨-, r, -, -, hr, hf, -⟩ := Declaration.exists_run?_copy hc hcopy
    exact Sheet.spells_of_run hr hf
  have hspells := Sheet.spells_transform (Sheet.spells_of_read hread htidy hpreludes hnames) ho hcopies
  obtain ⟨s', hs', -⟩ := Sheet.exists_read hspells
  exact ⟨_, s', (transform_of_read o hread).1, hs'⟩

/-- A string, brackets and a comment of a definition are put in the place of a reference by way of
another definition, and a fallback ends up in front of a mark of importance. -/
theorem transform_reads_again_nested :
    let o : Options := { onlyVariables := false }
    let css : Text := ":root" ++ inBraces "--x:\"\x7d;\" [\x7ba\x7d]/* \x7d */;--y:var(--x) 2%" ++
      "@media print" ++ inBraces ("a" ++ inBraces
        "top:calc(1px + calc(var(--z,2px)*3))!important;/*n*/left:f(var(--y))")
    let s : Sheet := [.root [.declaration ⟨"--x", "\"\x7d;\" [\x7ba\x7d]/* \x7d */"⟩,
        .declaration ⟨"--y", "var(--x) 2%"⟩],
      .container "media" "print" [.style ["a"]
        [.declaration ⟨"top", "calc(1px + calc(var(--z,2px)*3)) !important"⟩, .comment "n",
          .declaration ⟨"left", "f(var(--y))"⟩]]]
    Sheet.read css = .ok s ∧ ∃ out s', (transform o css).result = .ok out ∧
      out = ":root" ++ inBraces ("--x:\"\x7d;\" [\x7ba\x7d]/* \x7d */;--y:var(--x) 2%;" ++
          "--y:\"\x7d;\" [\x7ba\x7d]/* \x7d */ 2%") ++
        "@media print" ++ inBraces ("a" ++ inBraces
          ("top:calc(1px + calc(var(--z,2px)*3)) !important;top:calc(1px + (2px*3)) !important" ++
            "/*n*/;left:f(var(--y));left:f(\"\x7d;\" [\x7ba\x7d]/* \x7d */ 2%)")) ∧
      Sheet.read out = .ok s' := by
  intro o css s
  have hs : Sheet.read css = .ok s := by decide +kernel
  obtain ⟨out, s', hout, hread⟩ := transform_reads_again o hs rfl (by decide +kernel)
    (by decide +kernel) (by decide +kernel) (by decide +kernel)
  refine ⟨hs, out, s', hout, ?_, hread⟩
  exact Except.ok.inj (hout.symm.trans (by decide +kernel))

/-- A block behind other parts of a value, a semicolon that leaves its parentheses, an escape that
is stripped, an escaped comma and a name that needs an escape: what is written cannot be read. -/
theorem transform_reads_again_fails :
    ((Sheet.read (":root" ++ inBraces "--x:\x7b\x7d" ++ "a" ++ inBraces "b:c var(--x)")).isOk = true ∧
      (transform {} (":root" ++ inBraces "--x:\x7b\x7d" ++ "a" ++ inBraces "b:c var(--x)")).result =
        .ok (":root" ++ inBraces "--x:\x7b\x7d" ++ "a" ++ inBraces "b:c var(--x);b:c \x7b\x7d") ∧
      (Sheet.read (":root" ++ inBraces "--x:\x7b\x7d" ++ "a" ++
        inBraces "b:c var(--x);b:c \x7b\x7d")).isOk = false) ∧
    ((transform {} ("a" ++ inBraces "b:var(--x,;c)")).result =
        .ok ("a" ++ inBraces "b:var(--x,;c);b:;c") ∧
      (Sheet.read ("a" ++ inBraces "b:var(--x,;c);b:;c")).isOk = false) ∧
    ((transform { onlyVariables := false } ("a" ++ inBraces "b:x\\9 " ++ "c" ++ inBraces "d:e")).result =
        .ok ("a" ++ inBraces "b:x\\" ++ "c" ++ inBraces "d:e") ∧
      (Sheet.read ("a" ++ inBraces "b:x\\" ++ "c" ++ inBraces "d:e")).isOk = false) ∧
    ((transform { onlyVariables := false } ("a\\," ++ inBraces "b:c")).result =
        .ok ("a\\" ++ inBraces "b:c") ∧
      (Sheet.read ("a\\" ++ inBraces "b:c")).isOk = false) ∧
    ((transform { onlyVariables := false } ("a" ++ inBraces "\\31 b:c")).result =
        .ok ("a" ++ inBraces "1b:c") ∧
      (Sheet.read ("a" ++ inBraces "1b:c")).isOk = false) := by
  decide +kernel

end CustomProperties
