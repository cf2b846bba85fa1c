import CustomProperties.Proofs.Sheet.Keywords
import CustomProperties.Proofs.Sheet.Preludes
import CustomProperties.Proofs.Sheet.TidyBodies

/-! # Rules of tidy nodes

Every rule that is read from tidy nodes is spelled by its text, kind by kind: a rule with a prelude
by its selectors, a known at-rule by its keyword, and any other at-rule by the text it is kept as.
-/

namespace CustomProperties

open Syntax
open Syntax.Node (Parses Tidied Like trim)

namespace Sheet

variable {exact : Prop} {closer : Option Bracket} {whole : Bool} {ns prelude rest : List Node}
  {content : Option (List Node)} {place keyword : Text}

/-! ### Where preludes come from -/

theorem exists_tail (ns : List Node) : ∃ tail, ns = (Item.takeAtRule ns).1 ++ tail ∧
    (∀ n ∈ (Item.takeAtRule ns).1, n.isPlain = true) ∧
    ∀ content, (Item.takeAtRule ns).2.1 = some content → ∃ n ∈ tail, n.body? = some content := by
  induction ns with
  | nil => exact ⟨[], rfl, List.forall_mem_nil _, fun _ hc => by contradiction⟩
  | cons n ns ih =>
    rw [Item.takeAtRule]
    split
    next c hb =>
      exact ⟨n :: ns, rfl, List.forall_mem_nil _,
        fun content hc => ⟨n, List.mem_cons_self, hb.trans hc⟩⟩
    next hb =>
      split
      next => exact ⟨n :: ns, rfl, List.forall_mem_nil _, fun _ hc => by contradiction⟩
      next hl =>
        obtain ⟨tail, he, hp, hc⟩ := ih
        refine ⟨tail, congrArg (n :: ·) he, List.forall_mem_cons.mpr ⟨?_, hp⟩, hc⟩
        simp [Node.isPlain, hl, hb]

theorem exists_of_atRule
    (h : Item.nextRule? whole ns = some (.atRule place keyword prelude content, rest)) :
    ∃ tail, .token place (.atKeyword keyword) :: (prelude ++ tail) <:+ ns ∧
      (∀ n ∈ prelude, n.isPlain = true) ∧
      ∀ c, content = some c → ∃ n ∈ tail, n.body? = some c := by
  obtain ⟨n, ms, hs, ho⟩ := Item.exists_of_nextRule? h
  unfold Item.ofRule at ho
  split at ho
  next => simp at ho
  next p k =>
    obtain ⟨tail, he, hp, hc⟩ := exists_tail ms
    cases ho
    exact ⟨tail, he ▸ hs, hp, hc⟩
  next =>
    rcases Item.takeRule_cases false n.place [] (n :: ms) with ⟨_, _, _, he⟩ | ⟨_, _, _, _, he, -⟩ <;>
      · rw [he] at ho
        cases ho

theorem unblocked_of_takeRule {stops : Bool} {before ns prelude content rest : List Node} {p p' : Text}
    (h : Item.takeRule stops p before ns = (.rule p' prelude content, rest))
    (hb : ∀ n ∈ before, n.body? = none) : ∀ n ∈ prelude, n.body? = none := by
  induction ns generalizing before with
  | nil => cases h
  | cons n ns ih =>
    rw [Item.takeRule] at h
    split at h
    next =>
      cases h
      exact fun m hm => hb m (List.mem_reverse.mp hm)
    next hn =>
      split at h
      next => cases h
      next => exact ih h (List.forall_mem_cons.mpr ⟨hn, hb⟩)

theorem prelude_of_rule {content : List Node}
    (h : Item.nextRule? whole ns = some (.rule place prelude content, rest)) :
    (∀ n ∈ prelude, n.body? = none) ∧ ∀ n ∈ prelude.head?, startsRule whole n = true := by
  have hstart : ∃ n ms, Item.ofRule false n ms = (.rule place prelude content, rest) ∧
      (n.isBlank || (whole && Item.isHidingMark n)) = false := by
    induction ns with
    | nil => contradiction
    | cons n ns ih =>
      rw [Item.nextRule?] at h
      split at h
      next => exact ih h
      next hn => exact ⟨n, ns, Option.some.inj h, eq_false_of_ne_true hn⟩
  obtain ⟨n, ms, ho, hn⟩ := hstart
  rw [Bool.or_eq_false_iff] at hn
  obtain ⟨m, he, -⟩ := Item.exists_of_ofRule ho
  unfold Item.ofRule at ho
  split at ho
  next => simp at ho
  next => simp at ho
  next hc ha =>
    refine ⟨unblocked_of_takeRule ho (List.forall_mem_nil _), fun k hk => ?_⟩
    have hkn : k = n := by
      cases prelude with
      | nil => contradiction
      | cons k' prelude =>
        obtain rfl := Option.some.inj hk
        exact (List.cons_eq_cons.mp he).1.symm
    rw [hkn]
    unfold startsRule
    split
    next => exact absurd hn.1 (by simp [Node.isBlank])
    next p t => exact absurd rfl (hc p t)
    next p t => exact absurd rfl (ha p t)
    next => rw [hn.2]; rfl

/-! ### Conditions -/

theorem lexes_space {w : Text} (hw : w.head?.any isSpace = false) :
    Lexeme.Lexes (' ' :: w) (.token (.whitespace [' '])) w := by
  have h := (Lexeme.Step.whitespace (c := ' ') (t := w) rfl).lexes
  rwa [dropWhile_eq_self_of_head? hw, takeWhile_eq_nil_iff_head?.mpr hw] at h

theorem spellsCondition (h : Tidied closer prelude) (hp : ∀ n ∈ prelude, n.isPlain = true) :
    Spells closer (' ' :: writtenText prelude) (SpellsCondition exact (writtenText prelude)) := by
  have htrim := h.of_isInfix (Node.isInfix_trim prelude)
  obtain ⟨hh, hl⟩ := Node.firm_trim prelude
  have hf := Node.firm_writeAll htrim.tidy hh hl
  rw [h.writtenText_eq]
  refine ⟨IsStandard.cons_iff.mpr ⟨by decide, htrim.standard none⟩, fun w hw => ?_⟩
  obtain ⟨ms, hlike, hms⟩ := htrim.exists_like hw.stopped fun _ => hw.firm
  have hhead : (Node.writeAll (trim prelude) ++ w).head?.any isSpace = false := by
    cases ht : trim prelude with
    | nil => exact hw.firm
    | cons n ns =>
      rw [ht] at hh htrim
      obtain ⟨c, u, hc, hb⟩ := Node.exists_write (htrim.isTidy List.mem_cons_self) hh
      rw [Node.writeAll, Node.writeFrom_cons, hc]
      exact Node.not_isSpace_of_not_isBlank hb
  have hblank (p : Text) : Node.AreBlank [.token p (.whitespace [' '])] := by
    have hb : ∀ c ∈ [' '], Text.isBlank c = true := by decide
    exact List.forall_mem_singleton.mpr ⟨rfl, hb⟩
  refine ⟨_, .of_lexes (lexes_space hhead) hms, List.forall_mem_cons.mpr ⟨rfl, ?_⟩, fun _ => ?_⟩
  · exact Item.isPlain_of_like (fun n hn => hp n ((Node.isInfix_trim prelude).subset hn)) hlike
  · have hw : Node.writeFrom none ms = Node.writeAll (trim prelude) := hlike.writeFrom_eq
    have ha := (hblank (' ' :: (Node.writeAll (trim prelude) ++ w))).writeFrom_append ms
    refine (congrArg Text.strip ha).trans ?_
    rw [Text.strip_blank_append ((hblank _).isBlank_writeFrom none), hw, hf]

theorem spellsCondition_of_container (h : Tidied closer prelude)
    (hp : ∀ n ∈ prelude, n.isPlain = true) :
    Spells closer (if (writtenText prelude).isEmpty then [] else ' ' :: writtenText prelude)
      (SpellsCondition exact (writtenText prelude)) := by
  split
  next he =>
    rw [List.isEmpty_iff.mp he]
    exact ⟨.nil, fun w _ => ⟨[], .nil, nofun, fun _ => rfl⟩⟩
  next => exact spellsCondition h hp

/-! ### Rules that are kept as they are written -/

def closingText : Option (List Node) → Text
  | none => [';']
  | some content => inBraces (Node.writeAll content)

/-- The text of a kept rule has nothing to strip. -/
theorem rawText_eq (keyword : Text) (prelude : List Node) (content : Option (List Node)) :
    rawText keyword prelude content =
      '@' :: writeIdent keyword ++ (Node.writeAll prelude ++ closingText content) := by
  have hl : (closingText content).getLast?.any Text.isBlank = false ∧ closingText content ≠ [] := by
    cases content with
    | none => exact ⟨rfl, List.cons_ne_nil _ _⟩
    | some content =>
      refine ⟨?_, List.cons_ne_nil _ _⟩
      rw [closingText, inBraces, List.getLast?_concat]
      rfl
  have hr : rawText keyword prelude content =
      Text.strip ('@' :: writeIdent keyword ++ (Node.writeAll prelude ++ closingText content)) := by
    rw [← List.append_assoc]
    cases content <;> rfl
  rw [hr]
  refine Text.strip_eq_self rfl ?_
  rw [List.getLast?_append_of_ne_nil _ (List.append_ne_nil_of_right_ne_nil _ hl.2),
    List.getLast?_append_of_ne_nil _ hl.2]
  exact hl.1

theorem exists_keyword {tail : List Node}
    (h : Tidied closer (.token place (.atKeyword keyword) :: (prelude ++ tail))) {w : Text}
    (hw : Ended w) :
    ∃ ms, Like none prelude ms ∧ Parses closer (Node.writeAll prelude ++ w) ms w ∧
      Lexeme.Lexes ('@' :: writeIdent keyword ++ (Node.writeAll prelude ++ w))
        (.token (.atKeyword keyword)) (Node.writeAll prelude ++ w) := by
  have htidy : Tidied closer prelude :=
    h.of_isInfix ((List.prefix_append prelude tail).isInfix.trans (List.suffix_cons _ _).isInfix)
  obtain ⟨u, v, hp, -⟩ := h.parsed
  obtain ⟨c, t, y, rfl, hst, hp⟩ := hp.step_of_token nofun
  obtain ⟨z, hp, -⟩ := hp.exists_of_append
  obtain ⟨⟨ms, hl, hms⟩, ha⟩ := hp.respelled htidy.tidy hw.stopped (fun _ => hw.firm) (k := none) nofun
  cases hst with
  | atKeyword hi =>
    have hne := Lexeme.readName_ne_nil (Lexeme.startsName_of_startsIdent hi)
    exact ⟨ms, hl, hms, Lexeme.lexes_atKeyword hne (ha.startsName (not_startsName_readName t))⟩

theorem isStandard_rawText {tail : List Node}
    (h : Tidied closer (.token place (.atKeyword keyword) :: (prelude ++ tail)))
    (hc : ∀ c, content = some c → ∃ n ∈ tail, n.body? = some c) :
    IsStandard (rawText keyword prelude content) := by
  have hk := (h.singleton List.mem_cons_self).standard none
  have hw : (Node.token place (.atKeyword keyword)).write = '@' :: writeIdent keyword := rfl
  rw [Node.writeFrom_cons, hw, IsStandard.append_iff, IsStandard.append_iff] at hk
  have hp : Tidied closer prelude :=
    h.of_isInfix ((List.prefix_append prelude tail).isInfix.trans (List.suffix_cons _ _).isInfix)
  rw [rawText_eq]
  refine hk.2.1.append ((hp.standard none).append ?_)
  cases content with
  | none => exact (by decide : IsStandard [';'])
  | some content =>
    obtain ⟨n, hn, hb⟩ := hc content rfl
    have hcontent := h.content (List.mem_cons_of_mem _ (List.mem_append_right prelude hn)) hb
    exact isStandard_inBraces (hcontent.standard none)

theorem spellsRaw {tail : List Node}
    (h : Tidied closer (.token place (.atKeyword keyword) :: (prelude ++ tail)))
    (hp : ∀ n ∈ prelude, n.isPlain = true)
    (hc : ∀ c, content = some c → ∃ n ∈ tail, n.body? = some c)
    (hr : content = none ∨ Role.ofKeyword (Text.lowerAscii keyword) = .unknown) (w : Text) :
    ∃ ms, Parses closer (rawText keyword prelude content ++ w) ms w ∧
      SpellsRaw exact whole (rawText keyword prelude content) ms := by
  rw [rawText_eq]
  cases content with
  | none =>
    obtain ⟨ms, hl, hms, hx⟩ := exists_keyword h (ended_cons (c := ';') (by decide) (by decide) w)
    have hplain := Item.isPlain_of_like hp hl
    have hsemi := Lexeme.lexes_single (c := ';') (by decide) w
    have hn (p q : Text) (rest : List Node) : Item.nextRule? whole
        (.token p (.atKeyword keyword) :: (ms ++ [.token q (.literal [';'])]) ++ rest) =
          some (.atRule p keyword ms none, rest) := by
      rw [List.cons_append, List.append_assoc]
      exact nextRule?_statement hplain p q keyword
    have hall := Parses.of_lexes hx (hms.append (.of_lexes hsemi .nil))
    rw [List.append_assoc, List.append_assoc]
    refine ⟨_, hall, .intro (hn _ _) (.inl rfl) fun _ => ?_⟩
    rw [rawText_eq, Node.writeAll, hl.writeFrom_eq]
    rfl
  | some content =>
    obtain ⟨n, hn, hb⟩ := hc content rfl
    have hcontent := h.content (List.mem_cons_of_mem _ (List.mem_append_right prelude hn)) hb
    obtain ⟨cs, hlc, hcs⟩ := hcontent.exists_like (ended_closing w).stopped fun _ => (ended_closing w).firm
    obtain ⟨q, hblock⟩ := parses_braces hcs (.nil : Parses closer w [] w)
    obtain ⟨ms, hl, hms, hx⟩ := exists_keyword h (ended_inBraces (Node.writeAll content) w)
    have hplain := Item.isPlain_of_like hp hl
    have hn (p : Text) (rest : List Node) : Item.nextRule? whole
        (.token p (.atKeyword keyword) :: (ms ++ [.block q .curly cs]) ++ rest) =
          some (.atRule p keyword ms (some cs), rest) := by
      rw [List.cons_append, List.append_assoc]
      exact nextRule?_atRule hplain whole cs rest p q keyword
    have hall := Parses.of_lexes hx (hms.append hblock)
    rw [List.append_assoc, List.append_assoc]
    refine ⟨_, hall, .intro (hn _) (.inr (hr.resolve_left nofun)) fun _ => ?_⟩
    have hw : Node.writeAll cs = Node.writeAll content := hlc.writeFrom_eq
    rw [rawText_eq, Node.writeAll, hl.writeFrom_eq, closingText, closingText, hw]
    rfl

/-! ### All rules -/

def preludes (whole : Bool) (ns : List Node) : List (List Node) :=
  match _ : Item.nextRule? whole ns with
  | none => []
  | some (item, rest) =>
    let first : List (List Node) :=
      match item with
      | .rule _ prelude _ => [prelude]
      | .atRule _ keyword _ (some content) =>
        match Role.ofKeyword (Text.lowerAscii keyword) with
        | .keyframes _ => preludes false content
        | .container => preludes false content
        | _ => []
      | _ => []
    first ++ preludes whole rest
termination_by sizeOf ns
decreasing_by
  · exact Item.sizeOf_content_nextRule? ‹_› rfl
  · exact Item.sizeOf_content_nextRule? ‹_› rfl
  · exact Item.sizeOf_nextRule? ‹_›

theorem preludes_of_rule {content : List Node}
    (h : Item.nextRule? whole ns = some (.rule place prelude content, rest)) :
    preludes whole ns = prelude :: preludes whole rest := by
  rw [preludes]
  split
  next he => rw [h] at he; contradiction
  next he =>
    rw [h] at he
    cases he
    rfl

theorem preludes_of_rest {item : Item} (h : Item.nextRule? whole ns = some (item, rest)) :
    preludes whole rest ⊆ preludes whole ns := by
  rw [preludes.eq_1 whole ns]
  split
  next he => rw [h] at he; contradiction
  next he =>
    rw [h] at he
    cases he
    exact List.subset_append_right _ _

theorem preludes_of_content {content : List Node}
    (h : Item.nextRule? whole ns = some (.atRule place keyword prelude (some content), rest))
    (hr : (∃ vendor, Role.ofKeyword (Text.lowerAscii keyword) = .keyframes vendor) ∨
      Role.ofKeyword (Text.lowerAscii keyword) = .container) :
    preludes false content ⊆ preludes whole ns := by
  rw [preludes.eq_1 whole ns]
  split
  next he => rw [h] at he; contradiction
  next he =>
    rw [h] at he
    cases he
    rcases hr with ⟨vendor, hr⟩ | hr
    · simp [hr]
    · simp [hr]

/-- Names are written as they are, and no comment follows a mark of importance. -/
structure Settled (b : Body) : Prop where
  names : ∀ d ∈ b.declarations, writeIdent d.property = d.property
  keeps : b.IsChain KeepsNext

instance (b : Body) : Decidable (Settled b) :=
  decidable_of_iff ((∀ d ∈ b.declarations, writeIdent d.property = d.property) ∧ b.IsChain KeepsNext)
    ⟨fun ⟨hn, hk⟩ => ⟨hn, hk⟩, fun ⟨hn, hk⟩ => ⟨hn, hk⟩⟩

/-- Names are written as they are, and where the text has to be the same the body is settled. -/
structure SettledIf (exact : Prop) (b : Body) : Prop where
  names : ∀ d ∈ b.declarations, writeIdent d.property = d.property
  keeps : exact → b.IsChain KeepsNext

theorem not_mem_keyword (h : Tidied closer ns) (hm : .token place (.atKeyword keyword) ∈ ns) :
    '\n' ∉ Text.lowerAscii keyword := by
  have ht := h.isTidy hm
  simp only [Node.isTidy, Token.isTidy, Bool.and_eq_true, Bool.not_eq_true',
    List.contains_eq_mem, decide_eq_false_iff_not] at ht
  exact not_mem_lowerAscii ht.1

/-- Tidy nodes of a list of rules, whose preludes have the commas that their text shows. -/
structure TidyRules (whole : Bool) (ns : List Node) : Prop where
  tidied : Tidied (closerOfRules whole) ns
  listed : ∀ prelude ∈ preludes whole ns, Listed prelude

namespace TidyRules

variable {block : List Node} {b : Body}

theorem of_rest {item : Item} (h : TidyRules whole ns)
    (hn : Item.nextRule? whole ns = some (item, rest)) : TidyRules whole rest :=
  ⟨h.tidied.of_isInfix (Item.nextRule?_suffix hn).isInfix,
    fun p hp => h.listed p (preludes_of_rest hn hp)⟩

theorem of_atRule (h : TidyRules whole ns)
    (hn : Item.nextRule? whole ns = some (.atRule place keyword prelude (some block), rest)) :
    '\n' ∉ Text.lowerAscii keyword ∧ Tidied (closerOfRules whole) prelude ∧
      (∀ n ∈ prelude, n.isPlain = true) ∧ Tidied (some .curly) block := by
  obtain ⟨tail, hs, hplain, hc⟩ := exists_of_atRule hn
  obtain ⟨n, hm, hbody⟩ := hc block rfl
  have hi := h.tidied.of_isInfix hs.isInfix
  refine ⟨not_mem_keyword hi List.mem_cons_self, hi.of_isInfix ?_, hplain, ?_⟩
  · exact (List.prefix_append prelude tail).isInfix.trans (List.suffix_cons _ _).isInfix
  · exact hi.content (List.mem_cons_of_mem _ (List.mem_append_right prelude hm)) hbody

theorem of_content (h : TidyRules whole ns)
    (hn : Item.nextRule? whole ns = some (.atRule place keyword prelude (some block), rest))
    (hr : (∃ vendor, Role.ofKeyword (Text.lowerAscii keyword) = .keyframes vendor) ∨
      Role.ofKeyword (Text.lowerAscii keyword) = .container) : TidyRules false block :=
  ⟨(h.of_atRule hn).2.2.2, fun p hp => h.listed p (preludes_of_content hn hr hp)⟩

theorem spellsComment {text : Text} (h : TidyRules whole ns)
    (hn : Item.nextRule? whole ns = some (.comment text, rest)) : SpellsComment text := by
  obtain ⟨place, hm⟩ := Item.mem_of_comment hn
  exact spellsComment_of_mem h.tidied hm

theorem spells_of_rule (h : TidyRules whole ns)
    (hn : Item.nextRule? whole ns = some (.rule place prelude block, rest))
    (hr : ReadsBody block b) (hb : SettledIf exact b) :
    Spells (closerOfRules whole) (commaSeparated (selectors prelude))
        (SpellsPrelude exact whole (commaSeparated (selectors prelude))) ∧
      SpellsBody exact b := by
  obtain ⟨n, hs, hc⟩ := Item.of_nextRule? hn
  obtain ⟨hblock, hstart⟩ := prelude_of_rule hn
  have hi := h.tidied.of_isInfix hs.isInfix
  have hl := h.listed _ (by rw [preludes_of_rule hn]; exact List.mem_cons_self)
  exact ⟨spellsPrelude (hi.of_isInfix (List.prefix_append _ _).isInfix) hl hblock hstart,
    spellsBody (hi.content (List.mem_append_right _ List.mem_cons_self) hc) hr hb.names hb.keeps⟩

theorem spellsStages {stages : List Stage} (h : TidyRules false ns) (hr : ReadsStages ns stages)
    (hb : ∀ st ∈ stages, SettledIf exact st.body) : ∀ st ∈ stages, SpellsStage exact st := by
  induction hr with
  | nil => exact nofun
  | comment hn _ ih =>
    rw [List.forall_mem_cons] at hb ⊢
    exact ⟨.comment (h.spellsComment hn), ih (h.of_rest hn) hb.2⟩
  | keyframe hn hbody _ ih =>
    rw [List.forall_mem_cons] at hb ⊢
    obtain ⟨hselectors, hbody⟩ := h.spells_of_rule hn hbody hb.1
    exact ⟨.keyframe hselectors hbody, ih (h.of_rest hn) hb.2⟩

theorem spellsKeyframes {vendor : Text} {stages : List Stage} (h : TidyRules whole ns)
    (hn : Item.nextRule? whole ns = some (.atRule place keyword prelude (some block), rest))
    (hrole : Role.ofKeyword (Text.lowerAscii keyword) = .keyframes vendor)
    (hr : ReadsStages block stages) (hb : ∀ st ∈ stages, SettledIf exact st.body) :
    SpellsRule exact whole (.keyframes (writtenText prelude) vendor stages) := by
  obtain ⟨hkw, hpre, hplain, -⟩ := h.of_atRule hn
  have hstages := (h.of_content hn (.inl ⟨vendor, hrole⟩)).spellsStages hr hb
  obtain ⟨he, hk⟩ := of_keyframes hkw hrole
  rw [he] at hk hrole
  refine .keyframes (IsStandard.append_iff.mp hk.standard).1 hk.writeIdent_eq ?_
    (spellsCondition hpre hplain) hstages
  rw [hk.lowerAscii_eq]
  exact hrole

theorem spellsContainer {rules : List Rule} (h : TidyRules whole ns)
    (hn : Item.nextRule? whole ns = some (.atRule place keyword prelude (some block), rest))
    (hrole : Role.ofKeyword (Text.lowerAscii keyword) = .container)
    (hr : ∀ r ∈ rules, SpellsRule exact false r) :
    SpellsRule exact whole (.container (Text.lowerAscii keyword) (writtenText prelude) rules) := by
  obtain ⟨hkw, hpre, hplain, -⟩ := h.of_atRule hn
  have hk := isPlainKeyword_of_container hkw hrole
  exact .container hk.standard hk.writeIdent_eq hk.ne_nil hk.lowerAscii_eq hrole
    (spellsCondition_of_container hpre hplain) hr

theorem spellsUnknown (h : TidyRules whole ns)
    (hn : Item.nextRule? whole ns = some (.atRule place keyword prelude content, rest))
    (hr : content = none ∨ Role.ofKeyword (Text.lowerAscii keyword) = .unknown) :
    SpellsRule exact whole (.unknown (rawText keyword prelude content)) := by
  obtain ⟨tail, hs, hplain, hc⟩ := exists_of_atRule hn
  have hi := h.tidied.of_isInfix hs.isInfix
  exact .unknown (isStandard_rawText hi hc) fun w => spellsRaw hi hplain hc hr w

end TidyRules

theorem settledIf_of_stages {name vendor : Text} {stages : List Stage}
    (h : ∀ o ∈ Rule.owners (.keyframes name vendor stages), SettledIf exact o.body) :
    ∀ st ∈ stages, SettledIf exact st.body := by
  intro st hst
  cases st with
  | comment t => exact ⟨nofun, fun _ => List.isChain_nil⟩
  | keyframe selectors body =>
    exact h (.keyframe selectors body) (List.mem_filterMap.mpr ⟨_, hst, rfl⟩)

theorem spellsRules_of_settledIf {rs : List Rule} (h : TidyRules whole ns)
    (hr : ReadsRules whole ns rs) (hb : ∀ r ∈ rs.flatMap Rule.owners, SettledIf exact r.body) :
    ∀ r ∈ rs, SpellsRule exact whole r := by
  induction hr with
  | nil => exact nofun
  | comment hn _ ih =>
    rw [List.flatMap_cons, List.forall_mem_append] at hb
    exact List.forall_mem_cons.mpr ⟨.comment (h.spellsComment hn), ih (h.of_rest hn) hb.2⟩
  | style hn hbody _ ih =>
    rw [List.flatMap_cons, List.forall_mem_append] at hb
    have hset := hb.1 _ List.mem_cons_self
    exact List.forall_mem_cons.mpr
      ⟨.style fun _ => h.spells_of_rule hn hbody hset, ih (h.of_rest hn) hb.2⟩
  | statement hn _ ih =>
    rw [List.flatMap_cons, List.forall_mem_append] at hb
    exact List.forall_mem_cons.mpr ⟨h.spellsUnknown hn (.inl rfl), ih (h.of_rest hn) hb.2⟩
  | keyframes hn hrole hst _ ih =>
    rw [List.flatMap_cons, List.forall_mem_append] at hb
    exact List.forall_mem_cons.mpr
      ⟨h.spellsKeyframes hn hrole hst (settledIf_of_stages hb.1), ih (h.of_rest hn) hb.2⟩
  | fontFace hn _ hbody _ ih =>
    rw [List.flatMap_cons, List.forall_mem_append] at hb
    obtain ⟨-, -, -, hcontent⟩ := h.of_atRule hn
    have hset := hb.1 _ List.mem_cons_self
    exact List.forall_mem_cons.mpr
      ⟨.fontFace (spellsBody hcontent hbody hset.names hset.keeps), ih (h.of_rest hn) hb.2⟩
  | container hn hrole _ _ ihc ih =>
    rw [List.flatMap_cons, List.forall_mem_append] at hb
    have hset := hb.1
    rw [Rule.owners, Rule.ownersOf_eq] at hset
    exact List.forall_mem_cons.mpr
      ⟨h.spellsContainer hn hrole (ihc (h.of_content hn (.inr hrole)) hset), ih (h.of_rest hn) hb.2⟩
  | unknown hn hrole _ ih =>
    rw [List.flatMap_cons, List.forall_mem_append] at hb
    exact List.forall_mem_cons.mpr ⟨h.spellsUnknown hn (.inr hrole), ih (h.of_rest hn) hb.2⟩

/-- The rules of tidy nodes with settled bodies have the same text when they are read back. -/
theorem spellsRules {rs : List Rule} (h : TidyRules whole ns) (hr : ReadsRules whole ns rs)
    (hb : ∀ r ∈ rs.flatMap Rule.owners, Settled r.body) : ∀ r ∈ rs, SpellsRule True whole r :=
  spellsRules_of_settledIf h hr fun r hm => ⟨(hb r hm).names, fun _ => (hb r hm).keeps⟩

end Sheet

end CustomProperties
