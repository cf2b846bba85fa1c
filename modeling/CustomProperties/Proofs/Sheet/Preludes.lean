import CustomProperties.Proofs.Sheet.SpelledRules
import CustomProperties.Proofs.Split.Commas
import CustomProperties.Proofs.Syntax.Tidied

/-! # Preludes of tidy nodes

The selectors of a rule are cut out of the text of its prelude by a reader that knows only quotes
and brackets. Where it sees the commas that the grammar sees, the selectors are the parts of the
prelude, and they are read back as such.
-/

namespace CustomProperties

open Syntax
open Syntax.Node (Parses Tidied Like Alike trim)

namespace Sheet

variable {closer : Option Bracket} {whole : Bool} {ns ms prelude : List Node}

def isComma (n : Node) : Bool := n.isLiteral [',']

/-- The commas that count in the text are those among the nodes, and none of them comes first. -/
structure Listed (prelude : List Node) : Prop where
  sealed : ∀ part ∈ prelude.splitOnP isComma,
    Split.seals [','] Split.start (Node.writeAll part) = true
  starts : ∀ n ∈ prelude.head?, isComma n = false

instance (prelude : List Node) : Decidable (Listed prelude) :=
  decidable_of_iff ((∀ part ∈ prelude.splitOnP isComma,
      Split.seals [','] Split.start (Node.writeAll part) = true) ∧
      ∀ n ∈ prelude.head?, isComma n = false)
    ⟨fun ⟨hs, hf⟩ => ⟨hs, hf⟩, fun ⟨hs, hf⟩ => ⟨hs, hf⟩⟩

theorem parts_induction {P : List Node → Prop} (single : ∀ ns, (∀ n ∈ ns, isComma n = false) → P ns)
    (comma : ∀ ns p rest, (∀ n ∈ ns, isComma n = false) → P rest →
      P (ns ++ .token p (.literal [',']) :: rest)) (ns : List Node) : P ns := by
  induction hl : ns.length using Nat.strongRecOn generalizing ns with
  | ind k ih =>
    have hname : ∀ n ∈ Node.nameNodes ns, isComma n = false := fun n hn => by
      simpa [isComma] using List.all_eq_true.mp List.all_takeWhile n hn
    cases hr : Node.afterComma? ns with
    | none =>
      rw [Node.nameNodes_of_afterComma? hr] at hname
      exact single ns hname
    | some rest =>
      obtain ⟨p, he⟩ := Node.exists_of_afterComma? hr
      have hlen := congrArg List.length he
      rw [List.length_append, List.length_cons] at hlen
      rw [he]
      exact comma _ p rest hname (ih rest.length (by omega) rest rfl)

theorem splitOnP_append_comma {ns : List Node} (h : ∀ n ∈ ns, isComma n = false) (p : Text)
    (rest : List Node) : (ns ++ .token p (.literal [',']) :: rest).splitOnP isComma =
      ns :: rest.splitOnP isComma :=
  List.splitOnP_append_cons_of_forall_mem h _ rfl rest

theorem between_comma_eq_nil (h : ∀ n ∈ ns, n.kind ≠ .literal ['\\']) (p : Text) :
    Node.between (ns.getLast?.map Node.kind) (.token p (.literal [','])) = [] := by
  have hk : ns.getLast?.map Node.kind ≠ some (.literal ['\\']) := by
    intro hk
    obtain ⟨n, hn, hl⟩ := Option.map_eq_some_iff.mp hk
    exact h n (List.mem_of_getLast? hn) hl
  rcases Node.between_cases hk (.token p (.literal [','])) with hb | hb
  · exact hb
  · refine (Node.between_comma _ p).resolve_right fun he => ?_
    rw [hb] at he
    contradiction

theorem writeAll_comma (h : ∀ n ∈ ns, n.kind ≠ .literal ['\\']) (p : Text) (rest : List Node) :
    Node.writeAll (ns ++ .token p (.literal [',']) :: rest) =
      Node.writeAll ns ++ ',' :: Node.writeAll rest := by
  rw [Node.writeAll_append_comma, between_comma_eq_nil h, List.append_nil]

theorem commaSeparated_cons (part : Text) {parts : List Text} (h : parts ≠ []) :
    commaSeparated (part :: parts) = part ++ ',' :: commaSeparated parts := by
  obtain ⟨next, others, rfl⟩ := List.exists_cons_of_ne_nil h
  rw [commaSeparated, List.intercalate_cons_cons, List.append_assoc]
  rfl

theorem writeAll_parts (h : ∀ n ∈ ns, n.kind ≠ .literal ['\\']) :
    Node.writeAll ns = commaSeparated ((ns.splitOnP isComma).map Node.writeAll) := by
  induction ns using parts_induction with
  | single ns hc =>
    rw [List.splitOnP_eq_singleton hc, List.map_singleton, commaSeparated, List.intercalate_singleton]
  | comma ns p rest hc ih =>
    rw [List.forall_mem_append, List.forall_mem_cons] at h
    rw [writeAll_comma h.1, ih h.2.2, splitOnP_append_comma hc, List.map_cons,
      commaSeparated_cons _ (by simp [List.splitOnP_ne_nil])]

theorem infix_of_mem_splitOnP {part : List Node} (h : part ∈ ns.splitOnP isComma) : part <:+: ns := by
  induction ns using parts_induction with
  | single ns hc =>
    rw [List.splitOnP_eq_singleton hc, List.mem_singleton] at h
    exact h ▸ List.infix_rfl
  | comma ns p rest hc ih =>
    rw [splitOnP_append_comma hc] at h
    rcases List.mem_cons.mp h with rfl | h
    · exact (List.prefix_append _ _).isInfix
    · exact (ih h).trans ((List.suffix_cons _ rest).trans (List.suffix_append _ _)).isInfix

/-! ### The parts that are selectors -/

/-- The parts of a prelude without blanks around them, and without those that are blank. -/
def selectorParts (prelude : List Node) : List (List Node) :=
  ((prelude.splitOnP isComma).map trim).filter (!·.isEmpty)

/-- Neither end of the nodes is a blank, and their text is one part of a list. -/
structure IsPart (part : List Node) : Prop where
  nonempty : part ≠ []
  firm : Text.strip (Node.writeAll part) = Node.writeAll part
  written : Node.writeAll part ≠ []
  sealed : Split.seals [','] Split.start (Node.writeAll part) = true

theorem mem_selectorParts {part : List Node} (h : part ∈ selectorParts prelude) :
    ∃ raw ∈ prelude.splitOnP isComma, trim raw = part ∧ part ≠ [] := by
  obtain ⟨hm, hn⟩ := List.mem_filter.mp h
  obtain ⟨raw, hr, rfl⟩ := List.mem_map.mp hm
  exact ⟨raw, hr, rfl, by simpa using hn⟩

theorem writeAll_ne_nil (h : Tidied closer ns) (hn : ns ≠ []) (hh : ns.head?.any Node.isBlank = false) :
    Node.writeAll ns ≠ [] := by
  obtain ⟨n, ns, rfl⟩ := List.exists_cons_of_ne_nil hn
  obtain ⟨hw, -⟩ := Node.firm_write (h.isTidy List.mem_cons_self) hh
  rw [Node.writeAll, Node.writeFrom_cons]
  exact List.append_ne_nil_of_right_ne_nil _ (List.append_ne_nil_of_left_ne_nil hw _)

theorem isPart_of_mem (h : Tidied closer prelude) (hl : Listed prelude) {part : List Node}
    (hm : part ∈ selectorParts prelude) : IsPart part ∧ Tidied closer part := by
  obtain ⟨raw, hr, rfl, hne⟩ := mem_selectorParts hm
  have hraw := h.of_isInfix (infix_of_mem_splitOnP hr)
  have htrim := hraw.of_isInfix (Node.isInfix_trim raw)
  obtain ⟨hh, hlast⟩ := Node.firm_trim raw
  refine ⟨⟨hne, Node.firm_writeAll htrim.tidy hh hlast, writeAll_ne_nil htrim hne hh, ?_⟩, htrim⟩
  rw [← hraw.writtenText_eq, writtenText, Split.seals_strip]
  exact hl.sealed raw hr

theorem selectors_eq (h : Tidied closer prelude) (hl : Listed prelude) :
    selectors prelude = (selectorParts prelude).map Node.writeAll := by
  have hw := writeAll_parts fun n hn => h.kind_ne hn
  have hsplit : Split.split [','] none (Node.writeAll prelude) =
      (prelude.splitOnP isComma).map Node.writeAll := by
    rw [hw]
    exact Split.split_intercalate (List.forall_mem_map.mpr hl.sealed) (by simp [List.splitOnP_ne_nil])
  have hp : ∀ raw ∈ prelude.splitOnP isComma, Text.strip (Node.writeAll raw) = Node.writeAll (trim raw) ∧
      (Node.writeAll (trim raw)).isEmpty = (trim raw).isEmpty := by
    intro raw hr
    have hraw := h.of_isInfix (infix_of_mem_splitOnP hr)
    refine ⟨hraw.writtenText_eq, ?_⟩
    cases ht : trim raw with
    | nil => rfl
    | cons n ns =>
      have hne := writeAll_ne_nil (hraw.of_isInfix (Node.isInfix_trim raw)) (by simp [ht])
        (Node.firm_trim raw).1
      rw [ht] at hne
      simpa using hne
  have hfilter : (prelude.splitOnP isComma).filter
      ((!·.isEmpty) ∘ (Text.strip ∘ Node.writeAll)) =
        (prelude.splitOnP isComma).filter ((!·.isEmpty) ∘ trim) :=
    List.filter_congr fun raw hr => by
      rw [Function.comp_apply, Function.comp_apply, Function.comp_apply, (hp raw hr).1, (hp raw hr).2]
  rw [selectors, writtenText, Split.commaList_strip, Split.commaList, hsplit, selectorParts,
    List.map_map, List.filter_map, List.filter_map, List.map_map, hfilter]
  exact List.map_congr_left fun raw hr => (hp raw (List.mem_of_mem_filter hr)).1

/-! ### Parts are read back -/

inductive Joined : List (List Node) → List Node → Prop

  | nil : Joined [] []

  | single {part ms : List Node} : Like none part ms → Joined [part] ms

  | cons {part next ms rest : List Node} {others : List (List Node)} {p : Text} :
      Like none part ms → Joined (next :: others) rest →
      Joined (part :: next :: others) (ms ++ .token p (.literal [',']) :: rest)

theorem exists_joined {parts : List (List Node)} (h : ∀ part ∈ parts, Tidied closer part) {w : Text}
    (hw : Ended w) :
    ∃ ms, Parses closer (commaSeparated (parts.map Node.writeAll) ++ w) ms w ∧ Joined parts ms := by
  induction parts with
  | nil => exact ⟨[], .nil, .nil⟩
  | cons part parts ih =>
    obtain ⟨hp, hps⟩ := List.forall_mem_cons.mp h
    cases parts with
    | nil =>
      obtain ⟨ms, hl, hms⟩ := hp.exists_like hw.stopped fun _ => hw.firm
      exact ⟨ms, by simpa [commaSeparated] using hms, .single hl⟩
    | cons next others =>
      obtain ⟨rest, hr, hj⟩ := ih hps
      have hcomma : Ended (',' :: (commaSeparated ((next :: others).map Node.writeAll) ++ w)) :=
        ended_cons (by decide) (by decide) _
      obtain ⟨ms, hl, hms⟩ := hp.exists_like hcomma.stopped fun _ => hcomma.firm
      have hx := Lexeme.lexes_single (c := ',') (by decide)
        (commaSeparated ((next :: others).map Node.writeAll) ++ w)
      have hall := hms.append (.of_lexes hx hr)
      rw [List.map_cons, commaSeparated_cons _ (by simp), List.append_assoc]
      exact ⟨_, hall, .cons hl hj⟩

namespace Joined

variable {parts : List (List Node)}

/-- Every node is a comma, an empty comment or like a node of a part. -/
theorem alike_of_mem (h : Joined parts ms) {m : Node} (hm : m ∈ ms) :
    (∃ p t, m = .token p t ∧ (t = .literal [','] ∨ t = .comment [])) ∨
      ∃ part ∈ parts, ∃ n ∈ part, Alike n m := by
  have hlike {part ms : List Node} (h : Like none part ms) (hm : m ∈ ms) :
      (∃ p t, m = .token p t ∧ (t = .literal [','] ∨ t = .comment [])) ∨ ∃ n ∈ part, Alike n m := by
    rcases h.alike_of_mem hm with ⟨q, rfl⟩ | h
    · exact .inl ⟨q, _, rfl, .inr rfl⟩
    · exact .inr h
  induction h with
  | nil => contradiction
  | single hl =>
    exact (hlike hl hm).imp_right fun h => ⟨_, List.mem_cons_self, h⟩
  | @cons _ _ _ _ _ p hl _ ih =>
    rcases List.mem_append.mp hm with hm | hm
    · exact (hlike hl hm).imp_right fun h => ⟨_, List.mem_cons_self, h⟩
    rcases List.mem_cons.mp hm with rfl | hm
    · exact .inl ⟨p, _, rfl, .inl rfl⟩
    · exact (ih hm).imp_right fun ⟨part, hp, h⟩ => ⟨part, List.mem_cons_of_mem _ hp, h⟩

theorem writeAll_eq (h : Joined parts ms)
    (hk : ∀ part ∈ parts, ∀ n ∈ part, n.kind ≠ .literal ['\\']) :
    Node.writeAll ms = commaSeparated (parts.map Node.writeAll) := by
  induction h with
  | nil => rfl
  | single hl =>
    rw [List.map_singleton, commaSeparated, List.intercalate_singleton]
    exact hl.writeFrom_eq
  | @cons part next ms rest others p hl _ ih =>
    obtain ⟨hp, hps⟩ := List.forall_mem_cons.mp hk
    have hms : ∀ m ∈ ms, m.kind ≠ .literal ['\\'] := by
      intro m hm
      rcases hl.alike_of_mem hm with ⟨q, rfl⟩ | ⟨n, hn, ha⟩
      · exact nofun
      · rw [ha.kind]
        exact hp n hn
    have hc := @commaSeparated_cons (Node.writeAll part) ((next :: others).map Node.writeAll) (by simp)
    have hw : Node.writeAll ms = Node.writeAll part := hl.writeFrom_eq
    rw [writeAll_comma hms, ih hps, hw]
    exact hc.symm

theorem exists_head (h : Joined parts ms) {n m : Node} {part : List Node}
    {others : List (List Node)} (hp : parts = (n :: part) :: others) (hm : ms.head? = some m) :
    Alike n m := by
  cases h with
  | nil => contradiction
  | single hl =>
    obtain ⟨rfl, -⟩ := List.cons_eq_cons.mp hp
    obtain ⟨m', ms', rfl, ha, -⟩ := hl.exists_of_cons
    exact Option.some.inj hm ▸ ha
  | cons hl =>
    obtain ⟨rfl, -⟩ := List.cons_eq_cons.mp hp
    obtain ⟨m', ms', rfl, ha, -⟩ := hl.exists_of_cons
    exact Option.some.inj hm ▸ ha

end Joined

theorem startsRule_of_alike {n m : Node} (h : Alike n m) : startsRule whole m = startsRule whole n := by
  have hh : Item.isHidingMark m = Item.isHidingMark n := by
    rw [Item.isHidingMark, Item.isHidingMark, h.isLiteral, h.isLiteral]
  cases h with
  | @token p q t => cases t <;> simp [startsRule, hh]
  | @nested _ _ o => cases o <;> simp [startsRule, Opener.node, hh] at hh ⊢

theorem selectorParts_of_cons {n : Node} (hb : n.isBlank = false) (hc : isComma n = false)
    (ns : List Node) : ∃ part others, selectorParts (n :: ns) = (n :: part) :: others := by
  obtain ⟨first, rest, hs⟩ := List.exists_cons_of_ne_nil (List.splitOnP_ne_nil isComma ns)
  have hsplit : (n :: ns).splitOnP isComma = (n :: first) :: rest := by
    rw [List.splitOnP_cons_eq_if_modifyHead, hc, if_neg Bool.false_ne_true, hs]
    rfl
  have htrim : ∃ part, trim (n :: first) = n :: part := by
    have hd : (n :: first).dropWhile Node.isBlank = n :: first :=
      List.dropWhile_cons_of_neg (by simp [hb])
    have hp : trim (n :: first) <+: n :: first := by
      rw [trim, hd]
      exact List.rdropWhile_prefix _ _
    have hne : trim (n :: first) ≠ [] := by
      rw [trim, hd, Ne, List.rdropWhile_eq_nil_iff]
      intro h
      rw [h n List.mem_cons_self] at hb
      contradiction
    obtain ⟨m, part, ht⟩ := List.exists_cons_of_ne_nil hne
    rw [ht] at hp
    obtain ⟨rfl, -⟩ := List.cons_prefix_cons.mp hp
    exact ⟨part, ht⟩
  obtain ⟨part, ht⟩ := htrim
  refine ⟨part, (rest.map trim).filter (!·.isEmpty), ?_⟩
  rw [selectorParts, hsplit, List.map_cons, ht, List.filter_cons_of_pos (by simp)]

theorem isStandard_commaSeparated {parts : List Text} (h : ∀ part ∈ parts, IsStandard part) :
    IsStandard (commaSeparated parts) := by
  induction parts with
  | nil => exact .nil
  | cons part parts ih =>
    obtain ⟨hp, hps⟩ := List.forall_mem_cons.mp h
    cases parts with
    | nil => simpa [commaSeparated] using hp
    | cons next others =>
      rw [commaSeparated_cons _ (List.cons_ne_nil _ _)]
      exact hp.append (IsStandard.cons_iff.mpr ⟨by decide, ih hps⟩)

/-- The parts are found again in their text. -/
theorem commaList_commaSeparated {parts : List (List Node)} (h : ∀ part ∈ parts, IsPart part) :
    Split.commaList (commaSeparated (parts.map Node.writeAll)) = parts.map Node.writeAll := by
  cases parts with
  | nil => rfl
  | cons part parts =>
    have hs : Split.split [','] none (commaSeparated ((part :: parts).map Node.writeAll)) =
        (part :: parts).map Node.writeAll :=
      Split.split_intercalate (List.forall_mem_map.mpr fun p hp => (h p hp).sealed) (by simp)
    have hstrip : ((part :: parts).map Node.writeAll).map Text.strip =
        (part :: parts).map Node.writeAll := by
      rw [List.map_map]
      exact List.map_congr_left fun p hp => (h p hp).firm
    rw [Split.commaList, hs, hstrip, List.filter_eq_self]
    refine List.forall_mem_map.mpr fun p hp => ?_
    simpa using (h p hp).written

theorem spellsPrelude {exact : Prop} (h : Tidied closer prelude) (hl : Listed prelude)
    (hb : ∀ n ∈ prelude, n.body? = none) (hs : ∀ n ∈ prelude.head?, startsRule whole n = true) :
    Spells closer (commaSeparated (selectors prelude))
      (SpellsPrelude exact whole (commaSeparated (selectors prelude))) := by
  rw [selectors_eq h hl]
  have hparts : ∀ part ∈ selectorParts prelude, IsPart part ∧ Tidied closer part :=
    fun part hm => isPart_of_mem h hl hm
  have hmem : ∀ part ∈ selectorParts prelude, ∀ n ∈ part, n ∈ prelude := by
    intro part hm n hn
    obtain ⟨raw, hr, rfl, -⟩ := mem_selectorParts hm
    exact (infix_of_mem_splitOnP hr).subset ((Node.isInfix_trim raw).subset hn)
  refine ⟨isStandard_commaSeparated (List.forall_mem_map.mpr fun part hm =>
    (hparts part hm).2.standard none), fun w hw => ?_⟩
  obtain ⟨ms, hp, hj⟩ := exists_joined (fun part hm => (hparts part hm).2) hw
  refine ⟨ms, hp, fun m hm => ?_, fun m hm => ?_, fun _ => ?_⟩
  · rcases hj.alike_of_mem hm with ⟨p, t, rfl, -⟩ | ⟨part, hpm, n, hn, ha⟩
    · rfl
    · have hi := ha.body?_isSome
      rw [hb n (hmem part hpm n hn)] at hi
      simpa using hi
  · cases prelude with
    | nil =>
      cases hj
      contradiction
    | cons n ns =>
      have hn := hs n rfl
      have hblank : n.isBlank = false := by
        unfold Node.isBlank
        split
        next => contradiction
        next => rfl
      obtain ⟨part, others, he⟩ := selectorParts_of_cons hblank (hl.starts n rfl) ns
      rw [startsRule_of_alike (hj.exists_head he hm)]
      exact hn
  · rw [selectors, writtenText, Split.commaList_strip,
      hj.writeAll_eq fun part hm n hn => h.kind_ne (hmem part hm n hn),
      commaList_commaSeparated fun part hm => (hparts part hm).1]

end Sheet

end CustomProperties
