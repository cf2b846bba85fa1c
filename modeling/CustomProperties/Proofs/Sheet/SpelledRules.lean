import CustomProperties.Proofs.Sheet.Concatenation
import CustomProperties.Proofs.Sheet.Spelled

/-! # Texts of rules

A sheet whose selectors, conditions and bodies are spelled is read back from its text, rule by
rule. What is read may have other comments in its values, but if all of its parts are spelled
exactly it has the same text.
-/

namespace CustomProperties

open Syntax
open Syntax.Node (Parses)

namespace Sheet

variable {ns ms rest content : List Node} {exact : Prop} {whole : Bool}

def closerOfRules (whole : Bool) : Option Bracket := if whole then none else some .curly

/-! ### Preludes -/

/-- Whether a node starts a rule with a prelude in a list of rules. -/
def startsRule (whole : Bool) : Node → Bool
  | .token _ (.whitespace _) => false
  | .token _ (.comment _) => false
  | .token _ (.atKeyword _) => false
  | n => !(whole && Item.isHidingMark n)

/-- The nodes are read as the prelude of a rule, and if `exact` holds as the selectors `text`. -/
structure SpellsPrelude (exact : Prop) (whole : Bool) (text : Text) (ms : List Node) : Prop where
  unblocked : ∀ n ∈ ms, n.body? = none
  starts : ∀ n ∈ ms.head?, startsRule whole n = true
  same : exact → commaSeparated (selectors ms) = text

theorem takeRule_of_body {n : Node} (hb : n.body? = some content) (h : ∀ m ∈ ms, m.body? = none)
    (place : Text) (before : List Node) :
    Item.takeRule false place before (ms ++ n :: rest) =
      (.rule place (before.reverse ++ ms) content, rest) := by
  induction ms generalizing before with
  | nil => rw [List.nil_append, Item.takeRule, hb, List.append_nil]
  | cons m ms ih =>
    rw [List.forall_mem_cons] at h
    rw [List.cons_append, Item.takeRule, h.1, ih h.2]
    simp

theorem nextRule?_of_startsRule {n : Node} (h : startsRule whole n = true) (ns : List Node) :
    Item.nextRule? whole (n :: ns) = some (Item.takeRule false n.place [] (n :: ns)) := by
  have hn : (n.isBlank || (whole && Item.isHidingMark n)) = false := by
    unfold startsRule at h
    split at h
    next => contradiction
    next => contradiction
    next => contradiction
    next hw _ _ =>
      rw [Bool.or_eq_false_iff]
      refine ⟨?_, by simpa only [Bool.not_eq_true'] using h⟩
      unfold Node.isBlank
      split
      next => exact absurd rfl (hw _ _)
      next => rfl
  rw [Item.nextRule?, hn, if_neg Bool.false_ne_true]
  congr 1
  unfold Item.ofRule
  split
  next => contradiction
  next => contradiction
  next => rfl

theorem SpellsPrelude.nextRule? {text : Text} (h : SpellsPrelude exact whole text ms)
    (content rest : List Node) (p : Text) :
    ∃ place, Item.nextRule? whole (ms ++ .block p .curly content :: rest) =
      some (.rule place ms content, rest) := by
  have hb : (Node.block p .curly content).body? = some content := rfl
  cases ms with
  | nil =>
    have hs : startsRule whole (.block p .curly content) = true := by cases whole <;> rfl
    exact ⟨p, by rw [List.nil_append, nextRule?_of_startsRule hs]; rfl⟩
  | cons n ms =>
    refine ⟨n.place, ?_⟩
    rw [List.cons_append, nextRule?_of_startsRule (h.starts n rfl), ← List.cons_append,
      takeRule_of_body hb h.unblocked]
    rfl

structure SpellsCondition (exact : Prop) (text : Text) (ms : List Node) : Prop where
  plain : ∀ n ∈ ms, n.isPlain = true
  same : exact → writtenText ms = text

theorem takeAtRule_of_plain (h : ∀ m ∈ ms, m.isPlain = true) (rest : List Node) :
    Item.takeAtRule (ms ++ rest) =
      (ms ++ (Item.takeAtRule rest).1, (Item.takeAtRule rest).2) := by
  induction ms with
  | nil => rfl
  | cons m ms ih =>
    rw [List.forall_mem_cons] at h
    have hm := h.1
    simp only [Node.isPlain, Bool.and_eq_true, Bool.not_eq_true', Option.isNone_iff_eq_none] at hm
    rw [List.cons_append, Item.takeAtRule, hm.2]
    dsimp only
    rw [hm.1, if_neg Bool.false_ne_true, ih h.2]
    rfl

theorem nextRule?_of_plain (h : ∀ m ∈ ms, m.isPlain = true) {ns : List Node}
    {content : Option (List Node)} (ht : Item.takeAtRule ns = ([], content, rest)) (whole : Bool)
    (p keyword : Text) :
    Item.nextRule? whole (.token p (.atKeyword keyword) :: (ms ++ ns)) =
      some (.atRule p keyword ms content, rest) := by
  have hn : ((Node.token p (.atKeyword keyword)).isBlank ||
      (whole && Item.isHidingMark (.token p (.atKeyword keyword)))) = false := by
    cases whole <;> rfl
  rw [Item.nextRule?, hn, if_neg Bool.false_ne_true]
  unfold Item.ofRule
  dsimp only
  rw [takeAtRule_of_plain h, ht, List.append_nil]

theorem nextRule?_atRule (h : ∀ m ∈ ms, m.isPlain = true) (whole : Bool)
    (content rest : List Node) (p q keyword : Text) :
    Item.nextRule? whole (.token p (.atKeyword keyword) :: (ms ++ .block q .curly content :: rest)) =
      some (.atRule p keyword ms (some content), rest) :=
  nextRule?_of_plain h rfl whole p keyword

theorem nextRule?_statement (h : ∀ m ∈ ms, m.isPlain = true) (p q keyword : Text) :
    Item.nextRule? whole (.token p (.atKeyword keyword) :: (ms ++ .token q (.literal [';']) :: rest)) =
      some (.atRule p keyword ms none, rest) :=
  nextRule?_of_plain h rfl whole p keyword

theorem nextRule?_comment (p text : Text) (ns : List Node) :
    Item.nextRule? whole (.token p (.comment text) :: ns) = some (.comment text, ns) := by
  cases whole <;> rfl

/-! ### Blocks -/

theorem parses_braces {closer : Option Bracket} {t w v : Text} {content ns : List Node}
    (h : Parses (some .curly) (t ++ '\x7d' :: w) content ('\x7d' :: w)) (h' : Parses closer w ns v) :
    ∃ p, Parses closer (inBraces t ++ w) (.block p .curly content :: ns) v := by
  have ht : inBraces t ++ w = '\x7b' :: (t ++ '\x7d' :: w) := by simp [inBraces]
  rw [ht]
  exact ⟨_, .nested (o := .bracket .curly) (Lexeme.next_opening .curly _) h
    (.closed (b := .curly)) h'⟩

theorem ended_closing (w : Text) : Ended ('\x7d' :: w) :=
  ended_cons (by decide) (by decide) w

theorem ended_inBraces (t w : Text) : Ended (inBraces t ++ w) :=
  ended_cons (by decide) (by decide) _

theorem exists_braces {b : Body} (h : SpellsBody exact b) (closer : Option Bracket) (w : Text) :
    ∃ p content b', Parses closer (inBraces b.write ++ w) [.block p .curly content] w ∧
      ReadsBody content b' ∧ (exact → Body.write b' = Body.write b) ∧
      (b.any Entry.isDeclaration = true → b'.any Entry.isDeclaration = true) ∧
      List.Forall₂ Rereads b.declarations b'.declarations := by
  obtain ⟨content, b', hp, hr, hs, -, ha, hd⟩ := exists_body h (ended_closing w)
  obtain ⟨p, hb⟩ := parses_braces hp (.nil : Parses closer w [] w)
  exact ⟨p, content, b', hb, hr, hs, ha, hd⟩

/-! ### Stages -/

inductive SpellsStage (exact : Prop) : Stage → Prop

  | comment {t : Text} : SpellsComment t → SpellsStage exact (.comment t)

  | keyframe {selectors : List Text} {b : Body} :
      Spells (some .curly) (commaSeparated selectors)
        (SpellsPrelude exact false (commaSeparated selectors)) →
      SpellsBody exact b → SpellsStage exact (.keyframe selectors b)

theorem exists_stages {stages : List Stage} (h : ∀ st ∈ stages, SpellsStage exact st) (w : Text) :
    ∃ ms stages', Parses (some .curly) (stages.flatMap Stage.write ++ w) ms w ∧
      ReadsStages ms stages' ∧
      (exact → stages'.flatMap Stage.write = stages.flatMap Stage.write) ∧
      List.Forall₂ Rereads (stages.flatMap fun st => st.body.declarations)
        (stages'.flatMap fun st => st.body.declarations) := by
  induction stages with
  | nil => exact ⟨[], [], .nil, .nil rfl, fun _ => rfl, .nil⟩
  | cons st stages ih =>
    rw [List.forall_mem_cons] at h
    obtain ⟨ms, stages', hp, hr, hs, hd⟩ := ih h.2
    rw [List.flatMap_cons, List.append_assoc]
    cases h.1 with
    | @comment t ht =>
      refine ⟨_, .comment t :: stages', .of_lexes (Lexeme.lexes_comment ht.unclosed _) hp,
        .comment (nextRule?_comment _ t ms) hr, fun he => ?_, hd⟩
      rw [List.flatMap_cons, hs he]
    | @keyframe selectors b hsel hb =>
      obtain ⟨p, content, b', hpb, hrb, hsb, -, hdb⟩ :=
        exists_braces hb (some .curly) (stages.flatMap Stage.write ++ w)
      obtain ⟨prelude, hpp, hpre⟩ := hsel.reads (inBraces b.write ++ (stages.flatMap Stage.write ++ w))
        (ended_inBraces _ _)
      obtain ⟨place, hn⟩ := hpre.nextRule? content ms p
      have hall := hpp.append (hpb.append hp)
      refine ⟨_, .keyframe (Sheet.selectors prelude) b' :: stages', ?_, .keyframe hn hrb hr,
        fun he => ?_, List.rel_append hdb hd⟩
      · rw [Stage.write, List.append_assoc]
        exact hall
      · rw [List.flatMap_cons, hs he, Stage.write, Stage.write, hsb he, hpre.same he]

/-! ### Rules -/

def fontFaceKeyword : Text := ['f', 'o', 'n', 't', '-', 'f', 'a', 'c', 'e']

def keyframesKeyword : Text := ['k', 'e', 'y', 'f', 'r', 'a', 'm', 'e', 's']

/-- What is written for a rule of another kind is read as such a rule, whatever follows it. -/
inductive SpellsRaw (exact : Prop) (whole : Bool) (raw : Text) (ms : List Node) : Prop

  | intro {place keyword : Text} {prelude : List Node} {content : Option (List Node)} :
      (∀ rest, Item.nextRule? whole (ms ++ rest) =
        some (.atRule place keyword prelude content, rest)) →
      (content = none ∨ Role.ofKeyword (Text.lowerAscii keyword) = .unknown) →
      (exact → rawText keyword prelude content = raw) → SpellsRaw exact whole raw ms

inductive SpellsRule (exact : Prop) : Bool → Rule → Prop

  | comment {whole : Bool} {t : Text} : SpellsComment t →
      SpellsRule exact whole (.comment t)

  | style {whole : Bool} {selectors : List Text} {b : Body} :
      (b.any Entry.isDeclaration = true → Spells (closerOfRules whole) (commaSeparated selectors)
        (SpellsPrelude exact whole (commaSeparated selectors)) ∧ SpellsBody exact b) →
      SpellsRule exact whole (.style selectors b)

  | fontFace {whole : Bool} {b : Body} : SpellsBody exact b → SpellsRule exact whole (.fontFace b)

  | keyframes {whole : Bool} {name vendor : Text} {stages : List Stage} :
      IsStandard vendor → writeIdent (vendor ++ keyframesKeyword) = vendor ++ keyframesKeyword →
      Role.ofKeyword (Text.lowerAscii (vendor ++ keyframesKeyword)) = .keyframes vendor →
      Spells (closerOfRules whole) (' ' :: name) (SpellsCondition exact name) →
      (∀ st ∈ stages, SpellsStage exact st) →
      SpellsRule exact whole (.keyframes name vendor stages)

  | container {whole : Bool} {keyword condition : Text} {rules : List Rule} :
      IsStandard keyword → writeIdent keyword = keyword → keyword ≠ [] → Text.lowerAscii keyword = keyword →
      Role.ofKeyword keyword = .container →
      Spells (closerOfRules whole) (if condition.isEmpty then [] else ' ' :: condition)
        (SpellsCondition exact condition) →
      (∀ r ∈ rules, SpellsRule exact false r) →
      SpellsRule exact whole (.container keyword condition rules)

  | unknown {whole : Bool} {raw : Text} : IsStandard raw →
      (∀ w, ∃ ms, Parses (closerOfRules whole) (raw ++ w) ms w ∧ SpellsRaw exact whole raw ms) →
      SpellsRule exact whole (.unknown raw)

def ReadsBack (exact : Prop) (whole : Bool) (r : Rule) : Prop :=
  ∀ w, ∃ ms first, Parses (closerOfRules whole) (r.write ++ w) ms w ∧
    (exact → Rule.writeAll first = r.write) ∧
    List.Forall₂ Rereads r.declarations (first.flatMap Rule.declarations) ∧
    ∀ rest rs, ReadsRules whole rest rs → ReadsRules whole (ms ++ rest) (first ++ rs)

theorem exists_rules {rs : List Rule} (h : ∀ r ∈ rs, ReadsBack exact whole r) (w : Text) :
    ∃ ms rs', Parses (closerOfRules whole) (Rule.writeAll rs ++ w) ms w ∧ ReadsRules whole ms rs' ∧
      (exact → Rule.writeAll rs' = Rule.writeAll rs) ∧
      List.Forall₂ Rereads (rs.flatMap Rule.declarations) (rs'.flatMap Rule.declarations) := by
  induction rs with
  | nil => exact ⟨[], [], .nil, .nil rfl, fun _ => rfl, .nil⟩
  | cons r rs ih =>
    rw [List.forall_mem_cons] at h
    obtain ⟨ms, rs', hp, hr, hs, hd⟩ := ih h.2
    obtain ⟨ns, first, hpf, hsf, hdf, hrf⟩ := h.1 (Rule.writeAll rs ++ w)
    have hw : Rule.writeAll (r :: rs) ++ w = r.write ++ (Rule.writeAll rs ++ w) :=
      List.append_assoc ..
    refine ⟨ns ++ ms, first ++ rs', hw ▸ hpf.append hp, hrf ms rs' hr, fun he => ?_,
      by rw [List.flatMap_cons, List.flatMap_append]; exact List.rel_append hdf hd⟩
    have ha : Rule.writeAll (first ++ rs') = Rule.writeAll first ++ Rule.writeAll rs' := by
      simp only [Rule.writeAll_eq, List.flatMap_append]
    rw [ha, hsf he, hs he]
    rfl

theorem parses_keyword {closer : Option Bracket} {keyword u w : Text} {ms : List Node}
    (hk : writeIdent keyword = keyword) (hne : keyword ≠ []) (hu : Lexeme.startsName u = false)
    (h : Parses closer u ms w) :
    ∃ p, Parses closer ('@' :: keyword ++ u) (.token p (.atKeyword keyword) :: ms) w := by
  have hl := Lexeme.lexes_atKeyword hne hu
  rw [hk] at hl
  exact ⟨_, .of_lexes hl h⟩

theorem parses_atRule {closer : Option Bracket} {keyword condition inner text w : Text}
    {content : List Node} (hk : writeIdent keyword = keyword) (hne : keyword ≠ [])
    (hc : Spells closer condition (SpellsCondition exact text))
    (hs : ∀ c ∈ condition.head?, c ∈ stops)
    (hi : Parses (some .curly) (inner ++ '\x7d' :: w) content ('\x7d' :: w)) :
    ∃ p q prelude, Parses closer ('@' :: keyword ++ (condition ++ (inBraces inner ++ w)))
        (.token p (.atKeyword keyword) :: (prelude ++ [.block q .curly content])) w ∧
      SpellsCondition exact text prelude := by
  obtain ⟨q, hb⟩ := parses_braces hi (.nil : Parses closer w [] w)
  obtain ⟨prelude, hpp, hpre⟩ := hc.reads (inBraces inner ++ w) (ended_inBraces inner w)
  have hu := startsName_of_stopped (stopped_append hs (ended_inBraces inner w).stopped)
  obtain ⟨p, hp⟩ := parses_keyword hk hne hu (hpp.append hb)
  exact ⟨p, q, prelude, hp, hpre⟩

theorem writeAll_singleton (r : Rule) : Rule.writeAll [r] = r.write := List.append_nil _

theorem write_style (selectors : List Text) (b : Body) : (Rule.style selectors b).write =
    if b.any Entry.isDeclaration then commaSeparated selectors ++ inBraces b.write else [] := rfl

theorem write_fontFace (b : Body) :
    (Rule.fontFace b).write = '@' :: fontFaceKeyword ++ inBraces b.write := rfl

theorem write_keyframes (name vendor : Text) (stages : List Stage) :
    (Rule.keyframes name vendor stages).write = '@' :: (vendor ++ keyframesKeyword) ++
      (' ' :: name ++ inBraces (stages.flatMap Stage.write)) := by
  have hk : ("keyframes " : Text) = keyframesKeyword ++ [' '] := rfl
  change ['@'] ++ vendor ++ "keyframes " ++ name ++ inBraces (stages.flatMap Stage.write) = _
  rw [hk]
  simp

theorem write_container (keyword condition : Text) (rules : List Rule) :
    (Rule.container keyword condition rules).write = '@' :: keyword ++
      ((if condition.isEmpty then [] else ' ' :: condition) ++ inBraces (Rule.writeAll rules)) := by
  change ['@'] ++ keyword ++ (if condition.isEmpty then [] else ' ' :: condition) ++
    inBraces (Rule.writeAll rules) = _
  simp

theorem readsBack_comment {t : Text} (ht : SpellsComment t) :
    ReadsBack exact whole (.comment t) := by
  intro w
  exact ⟨_, [.comment t], .of_lexes (Lexeme.lexes_comment ht.unclosed w) .nil,
    fun _ => List.append_nil _, .nil, fun rest rs hr => .comment (nextRule?_comment _ t rest) hr⟩

/-- A style rule without declarations is not written. -/
theorem readsBack_style {selectors : List Text} {b : Body}
    (h : b.any Entry.isDeclaration = true →
      Spells (closerOfRules whole) (commaSeparated selectors)
        (SpellsPrelude exact whole (commaSeparated selectors)) ∧ SpellsBody exact b) :
    ReadsBack exact whole (.style selectors b) := by
  intro w
  cases hd : b.any Entry.isDeclaration with
  | false =>
    rw [write_style, hd, if_neg Bool.false_ne_true]
    have hnone : Rule.declarations (.style selectors b) = [] := by
      rw [Rule.declarations_style]
      exact Body.declarations_eq_nil hd
    exact ⟨[], [], .nil, fun _ => rfl, hnone ▸ .nil, fun _ _ hr => hr⟩
  | true =>
    obtain ⟨hsel, hb⟩ := h hd
    obtain ⟨p, content, b', hpb, hrb, hsb, hab, hdb⟩ := exists_braces hb (closerOfRules whole) w
    obtain ⟨prelude, hpp, hpre⟩ := hsel.reads (inBraces b.write ++ w) (ended_inBraces _ _)
    refine ⟨prelude ++ [.block p .curly content], [.style (Sheet.selectors prelude) b'], ?_,
      fun he => ?_, ?_, fun rest rs hr => ?_⟩
    · rw [write_style, if_pos hd, List.append_assoc]
      exact hpp.append hpb
    · rw [writeAll_singleton, write_style, write_style, if_pos hd, if_pos (hab hd), hsb he,
        hpre.same he]
    · rw [List.flatMap_singleton, Rule.declarations_style, Rule.declarations_style]
      exact hdb
    · obtain ⟨place, hn⟩ := hpre.nextRule? content rest p
      rw [List.append_assoc]
      exact .style hn hrb hr

theorem readsBack_fontFace {b : Body} (hb : SpellsBody exact b) :
    ReadsBack exact whole (.fontFace b) := by
  intro w
  obtain ⟨content, b', hp, hrb, hsb, -, -, hdb⟩ := exists_body hb (ended_closing w)
  have hc : Spells (closerOfRules whole) [] (SpellsCondition exact []) :=
    ⟨.nil, fun w _ => ⟨[], .nil, nofun, fun _ => rfl⟩⟩
  have hk : writeIdent fontFaceKeyword = fontFaceKeyword := by decide +kernel
  have hne : fontFaceKeyword ≠ [] := List.cons_ne_nil _ _
  obtain ⟨p, q, prelude, hpa, hpre⟩ := parses_atRule hk hne hc nofun hp
  rw [write_fontFace, List.append_assoc]
  refine ⟨_, [.fontFace b'], hpa, fun he => ?_, ?_, fun rest rs hr => ?_⟩
  · have hb : Body.write b' = Body.write b := hsb he
    rw [writeAll_singleton, write_fontFace, hb]
  · rw [List.flatMap_singleton, Rule.declarations_fontFace, Rule.declarations_fontFace]
    exact hdb
  · have hn := nextRule?_atRule hpre.plain whole content rest p q fontFaceKeyword
    rw [List.cons_append, List.append_assoc]
    exact .fontFace hn (by decide +kernel) hrb hr

theorem readsBack_keyframes {name vendor : Text} {stages : List Stage}
    (hw : writeIdent (vendor ++ keyframesKeyword) = vendor ++ keyframesKeyword)
    (hrole : Role.ofKeyword (Text.lowerAscii (vendor ++ keyframesKeyword)) = .keyframes vendor)
    (hc : Spells (closerOfRules whole) (' ' :: name) (SpellsCondition exact name))
    (hst : ∀ st ∈ stages, SpellsStage exact st) :
    ReadsBack exact whole (.keyframes name vendor stages) := by
  intro w
  obtain ⟨content, stages', hp, hrs, hss, hds⟩ := exists_stages hst ('\x7d' :: w)
  have hne : vendor ++ keyframesKeyword ≠ [] :=
    List.append_ne_nil_of_right_ne_nil _ (List.cons_ne_nil _ _)
  have hspace : ∀ c ∈ (' ' :: name).head?, c ∈ stops := by
    intro c hc
    obtain rfl := Option.some.inj hc
    decide
  obtain ⟨p, q, prelude, hpa, hpre⟩ := parses_atRule hw hne hc hspace hp
  rw [write_keyframes, List.append_assoc, List.append_assoc]
  refine ⟨_, [.keyframes (writtenText prelude) vendor stages'], hpa, fun he => ?_, ?_,
    fun rest rs hr => ?_⟩
  · rw [writeAll_singleton, write_keyframes, hss he, hpre.same he]
  · rw [List.flatMap_singleton, Rule.declarations_keyframes, Rule.declarations_keyframes]
    exact hds
  · have hn := nextRule?_atRule hpre.plain whole content rest p q (vendor ++ keyframesKeyword)
    rw [List.cons_append, List.append_assoc]
    exact .keyframes hn hrole hrs hr

theorem readsBack_container {keyword condition : Text} {rules : List Rule}
    (hw : writeIdent keyword = keyword) (hne : keyword ≠ [])
    (hl : Text.lowerAscii keyword = keyword) (hrole : Role.ofKeyword keyword = .container)
    (hc : Spells (closerOfRules whole) (if condition.isEmpty then [] else ' ' :: condition)
      (SpellsCondition exact condition))
    (hrules : ∀ r ∈ rules, ReadsBack exact false r) :
    ReadsBack exact whole (.container keyword condition rules) := by
  intro w
  obtain ⟨content, rules', hp, hrs, hss, hds⟩ := exists_rules hrules ('\x7d' :: w)
  have hspace : ∀ c ∈ (if condition.isEmpty then [] else ' ' :: condition).head?, c ∈ stops := by
    intro c hc
    split at hc
    next => contradiction
    next =>
      obtain rfl := Option.some.inj hc
      decide
  obtain ⟨p, q, prelude, hpa, hpre⟩ := parses_atRule hw hne hc hspace hp
  rw [write_container, List.append_assoc, List.append_assoc]
  refine ⟨_, [.container (Text.lowerAscii keyword) (writtenText prelude) rules'], hpa,
    fun he => ?_, ?_, fun rest rs hr => ?_⟩
  · rw [writeAll_singleton, write_container, hss he, hpre.same he, hl]
  · rw [List.flatMap_singleton, Rule.declarations_container, Rule.declarations_container]
    exact hds
  · have hn := nextRule?_atRule hpre.plain whole content rest p q keyword
    rw [List.cons_append, List.append_assoc]
    exact .container hn (by rw [hl, hrole]) hrs hr

theorem readsBack_unknown {raw : Text}
    (h : ∀ w, ∃ ms, Parses (closerOfRules whole) (raw ++ w) ms w ∧ SpellsRaw exact whole raw ms) :
    ReadsBack exact whole (.unknown raw) := by
  intro w
  obtain ⟨ms, hp, @⟨place, keyword, prelude, content, hn, hc, hs⟩⟩ := h w
  refine ⟨ms, [.unknown (rawText keyword prelude content)], hp, fun he => ?_, .nil,
    fun rest rs hr => ?_⟩
  · rw [writeAll_singleton, hs he]
  · cases content with
    | none => exact .statement (hn rest) hr
    | some content => exact .unknown (hn rest) (hc.resolve_left nofun) hr

theorem SpellsRule.readsBack {r : Rule} (h : SpellsRule exact whole r) :
    ReadsBack exact whole r := by
  induction h with
  | comment ht => exact readsBack_comment ht
  | style hs => exact readsBack_style hs
  | fontFace hb => exact readsBack_fontFace hb
  | keyframes _ hw hrole hc hst => exact readsBack_keyframes hw hrole hc hst
  | container _ hw hne hl hrole hc _ ih => exact readsBack_container hw hne hl hrole hc ih
  | unknown _ hraw => exact readsBack_unknown hraw

/-! ### What is written is standard -/

theorem isStandard_inBraces {t : Text} (h : IsStandard t) : IsStandard (inBraces t) :=
  (IsStandard.append (by decide) h).append (by decide)

theorem SpellsStage.standard {st : Stage} (h : SpellsStage exact st) : IsStandard st.write := by
  cases h with
  | comment ht => exact ht.write
  | keyframe hs hb => exact hs.standard.append (isStandard_inBraces (hb.standard false))

theorem isStandard_writeAll {rs : List Rule} (h : ∀ r ∈ rs, IsStandard r.write) :
    IsStandard (Rule.writeAll rs) := by
  rw [Rule.writeAll_eq]
  intro c hc
  obtain ⟨r, hr, hm⟩ := List.mem_flatMap.mp hc
  exact h r hr c hm

theorem SpellsRule.standard {r : Rule} (h : SpellsRule exact whole r) : IsStandard r.write := by
  induction h with
  | comment ht => exact ht.write
  | @style _ selectors b hs =>
    rw [write_style]
    split
    next hd => exact (hs hd).1.standard.append (isStandard_inBraces ((hs hd).2.standard false))
    next => exact .nil
  | fontFace hb =>
    rw [write_fontFace]
    exact IsStandard.append (by decide +kernel) (isStandard_inBraces (hb.standard false))
  | @keyframes _ name vendor stages hv _ _ hc hst =>
    have hk : IsStandard (vendor ++ keyframesKeyword) := hv.append (by decide +kernel)
    have hb : IsStandard (stages.flatMap Stage.write) := by
      intro c hc
      obtain ⟨st, hm, hc⟩ := List.mem_flatMap.mp hc
      exact (hst st hm).standard c hc
    rw [write_keyframes]
    exact (IsStandard.cons_iff.mpr ⟨by decide, hk⟩).append
      (hc.standard.append (isStandard_inBraces hb))
  | @container _ keyword condition rules hk _ _ _ _ hc _ ih =>
    rw [write_container]
    exact (IsStandard.cons_iff.mpr ⟨by decide, hk⟩).append
      (hc.standard.append (isStandard_inBraces (isStandard_writeAll ih)))
  | unknown hr => exact hr

/-- A sheet whose parts are spelled is read back, declaration by declaration. -/
theorem exists_reread {s : Sheet} (h : ∀ r ∈ s, SpellsRule exact true r) :
    ∃ s', Sheet.read s.text = .ok s' ∧ (exact → s'.text = s.text) ∧
      List.Forall₂ Rereads s.declarations s'.declarations := by
  obtain ⟨ms, rs, hp, hr, hsame, hd⟩ := exists_rules (fun r hr => (h r hr).readsBack) []
  rw [List.append_nil] at hp
  have hread : Node.readAll s.text = ms := hp.readAll_eq
  have hs : standardize s.text = s.text :=
    (isStandard_writeAll fun r hr => (h r hr).standard).standardize_eq
  refine ⟨rs, ?_, hsame, ?_⟩
  · rw [read, hs, hread, readRules_of_readsRules hr]
    rfl
  · rwa [declarations_eq, declarations_eq]

theorem readsRules_comments {ts : List Text} {cs : List Node} (h : AreComments ts cs) :
    ReadsRules true cs (ts.map .comment) := by
  induction h with
  | nil => exact .nil rfl
  | cons he _ ih =>
    obtain ⟨p, rfl⟩ := he
    exact .comment (nextRule?_comment p _ _) ih

theorem isStandard_commentsText {ts : List Text} (h : ∀ t ∈ ts, SpellsComment t) :
    IsStandard (commentsText ts) := by
  have ht : text (ts.map Rule.comment) = commentsText ts := by
    rw [text, Rule.writeAll_eq, List.flatMap_map]
    rfl
  rw [← ht]
  refine isStandard_writeAll fun r hr => ?_
  obtain ⟨t, hm, rfl⟩ := List.mem_map.mp hr
  exact (h t hm).write

theorem marks_commentsText {ts : List Text} (h : ∀ t ∈ ts, SpellsComment t) :
    (Lexeme.readAll (commentsText ts)).map Lexeme.mark = ts.map fun t => .token (.comment t) := by
  induction ts with
  | nil => rw [commentsText, List.flatMap_nil, Lexeme.readAll_nil]; rfl
  | cons t ts ih =>
    rw [List.forall_mem_cons] at h
    obtain ⟨c, u, hs, hn⟩ := Lexeme.lexes_comment h.1.unclosed (commentsText ts)
    rw [commentsText_cons, hs, Lexeme.readAll_cons, hn, List.map_cons, List.map_cons, ih h.2]

theorem readLimited_commentsText {ts : List Text} (h : ∀ t ∈ ts, SpellsComment t) :
    readLimited (commentsText ts) = .ok (ts.map .comment) := by
  have hs := (isStandard_commentsText h).standardize_eq
  have hl : longNumber? (commentsText ts) = none := by
    have hf : (ts.map fun t => Mark.token (.comment t)).findSome? Mark.longNumber? = none := by
      simp [Mark.longNumber?, Token.longNumber?]
    rwa [← marks_commentsText h, List.findSome?_map, ← hs] at hf
  obtain ⟨cs, hp, hc⟩ := parses_comments (closerOfRules true) h []
  rw [List.append_nil] at hp
  have hread : Node.readAll (commentsText ts) = cs := hp.readAll_eq
  rw [readLimited, hl, read, hs, hread, readRules_of_readsRules (readsRules_comments hc)]
  rfl

theorem exists_read {s : Sheet} (h : ∀ r ∈ s, SpellsRule exact true r) :
    ∃ s', Sheet.read s.text = .ok s' ∧ (exact → s'.text = s.text) := by
  obtain ⟨s', hs', hsame, -⟩ := exists_reread h
  exact ⟨s', hs', hsame⟩

end Sheet

end CustomProperties
