import CustomProperties.Proofs.Transform.Pruning

/-! # What pruning leaves

Pruning treats every rule other than a comment on its own, at whatever depth it stands: the rules
that are left in a sheet are what is left of each of its rules. Comments are left as long as the
list that they stand in is. What is left is not pruned any further.
-/

namespace CustomProperties

namespace Body

theorem anyRelated_eq (body : Body) :
    body.anyRelated = body.declarations.any Declaration.isRelated := by
  rw [anyRelated, declarations, List.any_filterMap]
  refine congrArg body.any (funext fun e => ?_)
  cases e <;> rfl

theorem related_related (body : Body) : body.related.related = body.related := by
  rw [related, related, List.filter_filter]
  simp only [Bool.and_self]

theorem anyRelated_related (body : Body) : body.related.anyRelated = body.anyRelated := by
  rw [anyRelated, related, List.any_filter, anyRelated]
  simp only [Bool.and_self]

end Body

namespace Rule

mutual

/-- A rule and all rules inside it, in document order. -/
def nested : Rule → List Rule
  | container keyword condition rules => container keyword condition rules :: nestedIn rules
  | r => [r]

def nestedIn : List Rule → List Rule
  | [] => []
  | r :: rs => r.nested ++ nestedIn rs

end

theorem nestedIn_eq (rs : List Rule) : nestedIn rs = rs.flatMap nested := by
  induction rs with
  | nil => rfl
  | cons r rs ih => rw [nestedIn, ih, List.flatMap_cons]

/-- A font face or a keyframes rule, which is kept with all its declarations or not at all. -/
def isWhole : Rule → Bool
  | fontFace _ => true
  | keyframes _ _ _ => true
  | _ => false

def isContainer : Rule → Bool
  | container _ _ _ => true
  | _ => false

def isPassive : Rule → Bool
  | comment _ => true
  | unknown _ => true
  | keyframe _ _ => true
  | _ => false

def contents : Rule → List Rule
  | container _ _ rules => rules
  | _ => []

def pruneContents : Rule → Rule
  | container keyword condition rules => container keyword condition (Sheet.prune rules)
  | r => r

def heading : Rule → Rule
  | style selectors _ => style selectors []
  | container keyword condition _ => container keyword condition []
  | keyframes name vendor _ => keyframes name vendor []
  | fontFace _ => fontFace []
  | keyframe selectors _ => keyframe selectors []
  | comment text => comment text
  | unknown raw => unknown raw

/-- A rule is left with its heading and all its declarations that define or use custom
properties. -/
structure Survives (r r' : Rule) : Prop where
  heading : r'.heading = r.heading
  declarations : r'.declarations.filter Declaration.isRelated =
    r.declarations.filter Declaration.isRelated

variable {r r' : Rule}

theorem heading_of_prune (h : r.prune = some r') : r'.heading = r.heading := by
  cases prune_eq_some_iff.mp h <;> rfl

theorem survives_of_prune (h : r.prune = some r') : r.Survives r' := by
  have hs := selected_prune (p := Declaration.isRelated) (fun _ hd => hd) r
  rw [h, Option.toList_some, List.flatMap_singleton] at hs
  exact ⟨heading_of_prune h, hs⟩

theorem nestedIn_of_comments {rs : List Rule} (h : rs.all isComment = true) :
    (nestedIn rs).filter (!·.isComment) = [] := by
  induction rs with
  | nil => rfl
  | cons r rs ih =>
    rw [List.all_cons, Bool.and_eq_true] at h
    rw [nestedIn, List.filter_append, ih h.2]
    cases r with
    | comment text => rfl
    | _ => exact absurd h.1 Bool.false_ne_true

theorem nested_prune_of_leaf (hr : r.nested = [r])
    (h : ∀ r', r.prune = some r' → r'.nested = [r']) :
    r.prune.toList.flatMap nested = r.nested.filterMap prune := by
  rw [hr]
  cases hp : r.prune with
  | none => simp [hp]
  | some r' => simp [hp, h r' hp]

mutual

/-- The rules that a rule leaves, other than comments, are left by the rules inside it. -/
theorem nested_prune (r : Rule) :
    (r.prune.toList.flatMap nested).filter (!·.isComment) =
      (r.nested.filterMap prune).filter (!·.isComment) := by
  cases r with
  | container keyword condition rules =>
    have ih := nestedIn_pruneAll rules
    rw [nested, List.filterMap_cons, prune]
    split
    next h =>
      -- no rule inside is left, since a container with such a rule would not be empty
      rw [nestedIn_of_comments h] at ih
      exact ih
    next h =>
      rw [Option.toList_some, List.flatMap_singleton, nested]
      exact congrArg (_ :: ·) ih
  | _ =>
    rw [nested_prune_of_leaf rfl]
    intro r' h
    cases prune_eq_some_iff.mp h
    rfl

theorem nestedIn_pruneAll (rs : List Rule) :
    (nestedIn (pruneAll rs)).filter (!·.isComment) =
      ((nestedIn rs).filterMap prune).filter (!·.isComment) := by
  cases rs with
  | nil => rfl
  | cons r rs =>
    have hr := nested_prune r
    have hrs := nestedIn_pruneAll rs
    rw [nestedIn, List.filterMap_append, List.filter_append, ← hr, ← hrs, pruneAll]
    cases r.prune with
    | none => rfl
    | some r' => rw [Option.toList_some, List.flatMap_singleton, nestedIn, List.filter_append]

end

theorem pruneAll_eq_self {rs : List Rule} (h : ∀ r ∈ rs, r.prune = some r) : pruneAll rs = rs := by
  induction rs with
  | nil => rfl
  | cons r rs ih =>
    rw [List.forall_mem_cons] at h
    rw [pruneAll, h.1, ih h.2]

mutual

theorem prune_of_prune (r : Rule) : ∀ kept ∈ r.prune, kept.prune = some kept := by
  intro kept hk
  cases prune_eq_some_iff.mp hk with
  | @style _ body ha => rw [prune, body.anyRelated_related, body.related_related, if_pos ha]
  | fontFace ha => rw [prune, if_pos ha]
  | keyframes ha => rw [prune, if_pos ha]
  | @container _ _ rules hc =>
    have ih : pruneAll (pruneAll rules) = pruneAll rules :=
      pruneAll_eq_self (prune_of_mem_pruneAll rules)
    rw [prune, ih, if_neg hc]
  | _ => rfl

theorem prune_of_mem_pruneAll (rs : List Rule) : ∀ r ∈ pruneAll rs, r.prune = some r := by
  cases rs with
  | nil => exact List.forall_mem_nil _
  | cons r rs =>
    have hr := prune_of_prune r
    have hrs := prune_of_mem_pruneAll rs
    rw [pruneAll]
    split
    next => exact hrs
    next kept hk => exact List.forall_mem_cons.mpr ⟨hr kept hk, hrs⟩

end

theorem filter_filterMap_prune {p q : Rule → Bool} {f : Rule → Rule}
    (h : ∀ r, r.prune.filter p = Option.guard q (f r)) (rs : List Rule) :
    (rs.filterMap prune).filter p = (rs.map f).filter q := by
  rw [List.filter_filterMap, ← List.filterMap_eq_filter, List.filterMap_map]
  exact congrArg (rs.filterMap ·) (funext h)

theorem prune_filter_isWhole (r : Rule) :
    r.prune.filter isWhole =
      Option.guard (fun r => r.isWhole && r.declarations.any Declaration.isRelated) r := by
  cases r with
  | fontFace body =>
    rw [prune, body.anyRelated_eq, ← declarations_fontFace]
    split <;> simp_all [Option.guard, isWhole]
  | keyframes name vendor stages =>
    have hr : (stages.any fun st => Body.anyRelated st.body) =
        (keyframes name vendor stages).declarations.any Declaration.isRelated := by
      rw [declarations_keyframes, List.any_flatMap]
      exact congrArg stages.any (funext fun st => st.body.anyRelated_eq)
    rw [prune, hr]
    split <;> simp_all [Option.guard, isWhole]
  | style selectors body =>
    rw [prune]
    split <;> rfl
  | container keyword condition rules =>
    rw [prune]
    split <;> rfl
  | _ => rfl

theorem prune_filter_isContainer (r : Rule) :
    r.prune.filter isContainer =
      Option.guard (fun r => r.isContainer && r.contents.any (!·.isComment)) r.pruneContents := by
  cases r with
  | container keyword condition rules =>
    have hp : Sheet.prune rules = pruneAll rules := (pruneAll_eq rules).symm
    rw [prune, pruneContents, hp, Option.guard, isContainer, contents, ← List.not_all_eq_any_not]
    cases (pruneAll rules).all isComment <;> rfl
  | comment text => rfl
  | unknown raw => rfl
  | keyframe selectors body => rfl
  | _ =>
    rw [prune]
    split <;> rfl

theorem prune_filter_isPassive (r : Rule) : r.prune.filter isPassive = Option.guard isPassive r := by
  cases r with
  | comment text => rfl
  | unknown raw => rfl
  | keyframe selectors body => rfl
  | _ =>
    rw [prune]
    split <;> rfl

theorem related_of_prune_eq_style {selectors : List Text} {body : Body}
    (h : r.prune = some (style selectors body)) :
    body ≠ [] ∧ ∀ e ∈ body, e.isRelated = true := by
  cases prune_eq_some_iff.mp h with
  | @style _ body' ha =>
    rw [← body'.anyRelated_related] at ha
    refine ⟨?_, fun e he => (List.mem_filter.mp he).2⟩
    intro hn
    rw [hn] at ha
    contradiction

end Rule

namespace Sheet

/-- All rules of a sheet, at any depth, in document order. -/
def nested (s : Sheet) : List Rule := s.flatMap Rule.nested

theorem nested_prune (s : Sheet) :
    s.prune.nested.filter (!·.isComment) = (s.nested.filterMap Rule.prune).filter (!·.isComment) := by
  have h := Rule.nestedIn_pruneAll s
  rwa [Rule.pruneAll_eq, Rule.nestedIn_eq, Rule.nestedIn_eq] at h

theorem filter_nested_prune {p : Rule → Bool} (hp : ∀ text, p (.comment text) = false)
    (s : Sheet) : s.prune.nested.filter p = (s.nested.filterMap Rule.prune).filter p := by
  have hf (rs : List Rule) : rs.filter p = (rs.filter (!·.isComment)).filter p := by
    rw [List.filter_filter]
    refine List.filter_congr fun r _ => ?_
    cases r with
    | comment text => rw [hp, Bool.false_and]
    | _ => exact (Bool.and_true _).symm
  rw [hf, nested_prune, ← hf]

/-- What is left of a list of rules: all comments and unknown rules, and the others in their order,
each with its heading and its declarations that define or use custom properties. -/
structure Thinned (rules rules' : List Rule) : Prop where
  passive : rules'.filter Rule.isPassive = rules.filter Rule.isPassive
  inOrder : ∃ kept : List Rule, kept.Sublist rules ∧ List.Forall₂ Rule.Survives kept rules'

theorem exists_survivors (s : Sheet) :
    ∃ kept : List Rule, kept.Sublist s ∧ List.Forall₂ Rule.Survives kept s.prune := by
  induction s with
  | nil => exact ⟨[], List.nil_sublist _, .nil⟩
  | cons r s ih =>
    obtain ⟨kept, hk, hf⟩ := ih
    cases h : r.prune with
    | none =>
      have hp : prune (r :: s) = prune s := List.filterMap_cons_none h
      exact ⟨kept, hk.cons r, hp ▸ hf⟩
    | some r' =>
      have hp : prune (r :: s) = r' :: prune s := List.filterMap_cons_some h
      exact ⟨r :: kept, hk.cons_cons r, hp ▸ .cons (Rule.survives_of_prune h) hf⟩

theorem thinned_prune (s : Sheet) : Thinned s s.prune := by
  refine ⟨?_, exists_survivors s⟩
  have h := Rule.filter_filterMap_prune (f := id) Rule.prune_filter_isPassive s
  rwa [List.map_id] at h

theorem prune_prune (s : Sheet) : s.prune.prune = s.prune := by
  have h := Rule.pruneAll_eq_self (Rule.prune_of_mem_pruneAll s)
  rwa [Rule.pruneAll_eq, Rule.pruneAll_eq] at h

theorem filter_declarations_prune (s : Sheet) :
    s.prune.declarations.filter Declaration.isRelated =
      s.declarations.filter Declaration.isRelated := by
  rw [declarations_eq, declarations_eq, List.filter_flatMap, List.filter_flatMap]
  exact flatMap_prune (fun r => r.selected_prune fun _ hd => hd) s

theorem filter_isWhole_prune (s : Sheet) :
    s.prune.nested.filter Rule.isWhole =
      s.nested.filter fun r => r.isWhole && r.declarations.any Declaration.isRelated := by
  rw [filter_nested_prune fun _ => rfl,
    Rule.filter_filterMap_prune (f := id) Rule.prune_filter_isWhole, List.map_id]

theorem filter_isContainer_prune (s : Sheet) :
    s.prune.nested.filter Rule.isContainer = (s.nested.map Rule.pruneContents).filter
      fun r => r.isContainer && r.contents.any (!·.isComment) := by
  rw [filter_nested_prune fun _ => rfl, Rule.filter_filterMap_prune Rule.prune_filter_isContainer]

theorem exists_of_container_mem {s : Sheet} {keyword condition : Text} {rules' : List Rule}
    (h : .container keyword condition rules' ∈ s.prune.nested) :
    ∃ rules, .container keyword condition rules ∈ s.nested ∧ rules' = prune rules := by
  have hf : .container keyword condition rules' ∈ s.prune.nested.filter Rule.isContainer :=
    List.mem_filter.mpr ⟨h, rfl⟩
  rw [filter_isContainer_prune] at hf
  obtain ⟨r, hr, he⟩ := List.mem_map.mp (List.mem_filter.mp hf).1
  cases r with
  | container keyword' condition' rules =>
    obtain ⟨rfl, rfl, rfl⟩ := Rule.container.inj he
    exact ⟨rules, hr, rfl⟩
  | _ => contradiction

theorem related_of_style_mem {s : Sheet} {selectors : List Text} {body : Body}
    (h : .style selectors body ∈ s.prune.nested) :
    body ≠ [] ∧ ∀ e ∈ body, e.isRelated = true := by
  have hf : .style selectors body ∈ s.prune.nested.filter (!·.isComment) :=
    List.mem_filter.mpr ⟨h, rfl⟩
  rw [nested_prune] at hf
  obtain ⟨r, -, hr⟩ := List.mem_filterMap.mp (List.mem_filter.mp hf).1
  exact Rule.related_of_prune_eq_style hr

/-- Pruning leaves all declarations that define or use custom properties, in style rules that have
nothing else, and the font faces and keyframes that have such declarations. Containers are left
while they hold more than comments, and every list that is left has all its comments and unknown
rules. Pruning once more changes nothing. -/
theorem prune_keeps_exactly (s : Sheet) :
    s.prune.declarations.filter Declaration.isRelated =
      s.declarations.filter Declaration.isRelated ∧
    (∀ selectors body, .style selectors body ∈ s.prune.nested →
      body ≠ [] ∧ ∀ e ∈ body, e.isRelated = true) ∧
    s.prune.nested.filter Rule.isWhole =
      s.nested.filter (fun r => r.isWhole && r.declarations.any Declaration.isRelated) ∧
    s.prune.nested.filter Rule.isContainer = (s.nested.map Rule.pruneContents).filter
      (fun r => r.isContainer && r.contents.any (!·.isComment)) ∧
    (Thinned s s.prune ∧ ∀ keyword condition rules',
      .container keyword condition rules' ∈ s.prune.nested →
      ∃ rules, .container keyword condition rules ∈ s.nested ∧ Thinned rules rules') ∧
    s.prune.prune = s.prune := by
  refine ⟨s.filter_declarations_prune, fun _ _ => related_of_style_mem, s.filter_isWhole_prune,
    s.filter_isContainer_prune, ⟨s.thinned_prune, ?_⟩, s.prune_prune⟩
  intro keyword condition rules' hm
  obtain ⟨rules, hr, rfl⟩ := exists_of_container_mem hm
  exact ⟨rules, hr, thinned_prune rules⟩

/-- A container in a container that is left with a comment only takes the outer one with it. -/
example :
    let plain : Rule := .style ["a"] [.declaration ⟨"color", "red"⟩]
    let face : Body := [.comment "kept", .declaration ⟨"src", "var(--s)"⟩]
    prune [.container "media" "print" [.container "supports" "all" [plain, .comment "lost"]],
      .unknown "@layer a;", .container "media" "all" [plain, .fontFace face, .comment "kept"]] =
      [.unknown "@layer a;", .container "media" "all" [.fontFace face, .comment "kept"]] := by
  decide +kernel

end Sheet

end CustomProperties
