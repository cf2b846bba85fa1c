import CustomProperties.Proofs.Sheet.Spelled
import CustomProperties.Proofs.Syntax.Tidied

/-! # Bodies of tidy nodes

A value keeps its text when it is stripped, and its mark of importance is written behind it. So the
values of tidy nodes are read back, and with them a body whose names are spelled without escapes
and in which no comment follows such a mark.
-/

namespace CustomProperties

open Syntax
open Syntax.Node (Parses Tidied Like trim)

namespace Sheet

variable {exact : Prop} {closer : Option Bracket} {ns value taken : List Node} {important : Bool}

theorem spellsComment_of_mem {p t : Text} (h : Tidied closer ns)
    (hm : .token p (.comment t) ∈ ns) : SpellsComment t := by
  obtain ⟨u, v, hp, hs⟩ := (h.singleton hm).parsed
  obtain ⟨c, x, y, rfl, hst, -⟩ := hp.step_of_token nofun
  have hw : IsStandard ("/*" ++ t ++ "*/") := (hst.standard hs).1
  rw [IsStandard.append_iff, IsStandard.append_iff] at hw
  refine ⟨hw.1.2, ?_⟩
  cases hst with
  | comment hb => exact Text.not_occurs_of_breakOn hb
  | openComment hb => exact Text.breakOn_eq_none_iff.mp hb

/-! ### Values -/

structure IsMark (bang name : Node) : Prop where
  bang : ∃ p, bang = .token p (.literal ['!'])
  name : Item.isImportantName name = true

theorem exists_mark (closer : Option Bracket) {w : Text} (hw : Ended w) :
    ∃ bang name, Parses closer ("!important" ++ w) [bang, name] w ∧ IsMark bang name := by
  have hword : ∀ c ∈ w.head?, c ∉ ['+', '>', '('] := fun c hc hm => by
    have hs : ∀ d ∈ ['+', '>', '('], d ∉ stops := by decide
    exact hs c hm (hw.stopped c hc)
  have hwrite : writeIdent "important" = "important" := by decide +kernel
  have hname := lexes_name hwrite (by decide)
    (startsName_of_stopped hw.stopped) hword
  have hbang := Lexeme.lexes_single (c := '!') (by decide) ("important" ++ w)
  exact ⟨_, _, .of_lexes hbang (.of_lexes hname .nil), ⟨_, rfl⟩, rfl⟩

theorem IsMark.readValue? {bang name : Node} {after : List Node} (h : IsMark bang name)
    (hp : (Item.scan ns).phase = .plain) (hb : (Item.scan ns).misplacedBlock = false)
    (ha : ∀ n ∈ after, n.isFiller = true) :
    Item.readValue? (ns ++ bang :: name :: after) = some (ns, true) := by
  obtain ⟨⟨q, rfl⟩, hn⟩ := h
  exact Item.readValue?_mark hp hb rfl hn ha

theorem IsMark.isPlain {bang name : Node} (h : IsMark bang name) :
    ∀ n ∈ [bang, name], n.isPlain = true := by
  obtain ⟨⟨q, rfl⟩, hn⟩ := h
  have hname : name.isPlain = true := by
    unfold Item.isImportantName at hn
    split at hn
    next => rfl
    next => contradiction
  simpa using ⟨rfl, hname⟩

theorem scan_trim (ns : List Node) : Item.ValueScan.Similar (Item.scan (trim ns)) (Item.scan ns) := by
  obtain ⟨before, after, he, hb, ha⟩ := Node.exists_of_trim ns
  have hf {ns : List Node} (h : ∀ n ∈ ns, n.isBlank = true) : ∀ n ∈ ns, n.isFiller = true := by
    intro n hn
    have hn := h n hn
    unfold Node.isBlank at hn
    split at hn
    next => rfl
    next => contradiction
  have hs := Item.similar_scan (hf hb) (hf ha) (trim ns)
  rwa [← he] at hs

theorem spellsValue_of_like {ms : List Node} (h : Tidied closer taken)
    (ht : Item.IsTaken taken) (hr : Item.readValue? taken = some (taken, false))
    (hl : Like none (trim taken) ms) : SpellsValue exact (writtenText taken) ms := by
  obtain ⟨-, hb, hp⟩ := Item.phase_of_readValue? hr
  have hs := (Item.similar_of_like hl).symm.trans (scan_trim taken)
  have hm : Item.readValue? ms = some (ms, false) :=
    Item.readValue?_of_phase (hs.block.trans hb) fun he => hp (hs.phase ▸ he)
  have htrim := h.of_isInfix (Node.isInfix_trim taken)
  have hw : Node.writeAll ms = writtenText taken := hl.writeFrom_eq.trans h.writtenText_eq.symm
  refine ⟨(ht.of_isInfix (Node.isInfix_trim taken)).of_like hl, by rw [hm]; rfl, fun _ =>
    ⟨ms, false, hm, ?_, fun _ => ⟨hw, fun m hmem => ?_⟩⟩⟩
  · have hf := Node.firm_writeAll htrim.tidy (Node.firm_trim taken).1 (Node.firm_trim taken).2
    rw [← h.writtenText_eq, ← hw] at hf
    exact hf.trans hw
  · rcases hl.alike_of_mem hmem with ⟨q, rfl⟩ | ⟨n, hn, ha⟩
    · exact nofun
    · rw [ha.kind]
      exact htrim.kind_ne hn

theorem spellsValue_of_mark {ms : List Node} {p : Text} {bang name : Node}
    (h : Tidied closer value) (hp : ∀ n ∈ value, n.isPlain = true)
    (hs : (Item.scan value).phase = .plain) (hb : (Item.scan value).misplacedBlock = false)
    (hl : Like none (trim value) ms) (hm : IsMark bang name) :
    SpellsValue exact (writtenText value ++ importantMark)
      (ms ++ [.token p (.whitespace [' '])] ++ [bang, name]) := by
  have hsim := (Item.similar_of_like hl).symm.trans (scan_trim value)
  have hgap : Item.ValueScan.Similar (Item.scan (ms ++ [.token p (.whitespace [' '])]))
      (Item.scan value) := by
    rw [Item.scan_concat]
    exact (Item.ValueScan.similar_filler rfl _).trans hsim
  have hr : Item.readValue? (ms ++ [.token p (.whitespace [' '])] ++ [bang, name]) =
      some (ms ++ [.token p (.whitespace [' '])], true) :=
    hm.readValue? (hgap.phase.trans hs) (hgap.block.trans hb) nofun
  have htrim := h.of_isInfix (Node.isInfix_trim value)
  have hplain : ∀ n ∈ ms, n.isPlain = true :=
    Item.isPlain_of_like (fun n hn => hp n ((Node.isInfix_trim value).subset hn)) hl
  have hblank : Node.AreBlank [.token p (.whitespace [' '])] := by
    have hb : ∀ c ∈ [' '], Text.isBlank c = true := by decide
    exact List.forall_mem_singleton.mpr ⟨rfl, hb⟩
  refine ⟨.inl (List.forall_mem_append.mpr ⟨List.forall_mem_append.mpr ⟨hplain,
    List.forall_mem_singleton.mpr rfl⟩, hm.isPlain⟩), by rw [hr]; rfl, fun _ => ⟨_, true, hr, ?_, nofun⟩⟩
  have hw : writtenText (ms ++ [.token p (.whitespace [' '])]) = writtenText value := by
    have hf := Node.firm_writeAll htrim.tidy (Node.firm_trim value).1 (Node.firm_trim value).2
    rw [writtenText, Node.writeAll, Node.writeFrom_append,
      Text.strip_append_of_blank _ (hblank.isBlank_writeFrom _), hl.writeFrom_eq,
      h.writtenText_eq]
    exact hf
  change writtenText (ms ++ [.token p (.whitespace [' '])]) ++ importantMark = _
  rw [hw]

theorem spellsValue (h : Tidied closer taken) (ht : Item.IsTaken taken)
    (hr : Item.readValue? taken = some (value, important)) :
    Spells closer (valueText value important)
      (SpellsValue exact (valueText value important)) := by
  have hstandard {ns : List Node} (h : Tidied closer ns) : IsStandard (writtenText ns) := by
    rw [h.writtenText_eq]
    exact (h.of_isInfix (Node.isInfix_trim ns)).standard none
  cases important with
  | false =>
    obtain ⟨rfl, -⟩ := Item.phase_of_readValue? hr
    refine ⟨hstandard h, fun w hw => ?_⟩
    obtain ⟨ms, hl, hp⟩ := (h.of_isInfix (Node.isInfix_trim value)).exists_like hw.stopped fun _ => hw.firm
    rw [← h.writtenText_eq] at hp
    exact ⟨ms, hp, spellsValue_of_like h ht hr hl⟩
  | true =>
    -- a value with a mark has no block
    have hplain : ∀ n ∈ taken, n.isPlain = true := by
      rcases ht with hp | ⟨before, n, rfl, -, hn⟩
      · exact hp
      · exact absurd (Item.readValue?_concat_body hn hr) (by decide)
    have hpre := Item.prefix_of_readValue? hr
    obtain ⟨hs, hb⟩ := Item.phase_of_readValue?_important hr
    have hv := h.of_isInfix hpre.isInfix
    refine ⟨(hstandard hv).append (by decide), fun w hw => ?_⟩
    obtain ⟨bang, name, hpm, hm⟩ := exists_mark closer hw
    have hgap : Lexeme.Lexes (importantMark ++ w) (.token (.whitespace [' '])) ("!important" ++ w) :=
      ⟨' ', "!important" ++ w, rfl, rfl⟩
    have hstop : Stopped (importantMark ++ w) := Lexeme.stopped_cons (by decide) _
    obtain ⟨ms, hl, hp⟩ := (hv.of_isInfix (Node.isInfix_trim value)).exists_like hstop fun hlast => by
      rw [(Node.firm_trim value).2] at hlast
      contradiction
    rw [← hv.writtenText_eq] at hp
    have hall := (hp.append (.of_lexes hgap .nil)).append hpm
    have htext : valueText value true ++ w = writtenText value ++ (importantMark ++ w) :=
      List.append_assoc ..
    exact ⟨_, htext ▸ hall, spellsValue_of_mark hv (fun n hn => hplain n (hpre.subset hn)) hs hb hl hm⟩

/-! ### Bodies -/

theorem spellsName {p name : Text} (h : Tidied closer ns) (hm : .token p (.ident name) ∈ ns)
    (hn : writeIdent name = name) : IsStandard name ∧ name ≠ [] := by
  have hs := (h.singleton hm).standard none
  obtain ⟨hne, -⟩ := Node.firm_write (h.isTidy hm) rfl
  have hw : (Node.token p (.ident name)).write = name := hn
  rw [Node.writeFrom_cons, hw, IsStandard.append_iff, IsStandard.append_iff] at hs
  exact ⟨hs.2.1, hw ▸ hne⟩

/-- The body that tidy nodes are read as is read back from its text. -/
theorem spellsBody {b : Body} (h : Tidied (some .curly) ns) (hr : ReadsBody ns b)
    (hn : ∀ d ∈ b.declarations, writeIdent d.property = d.property) (hk : exact → b.IsChain KeepsNext) :
    SpellsBody exact b := by
  have hall : (∀ d, Entry.declaration d ∈ b → SpellsDeclaration exact d) ∧
      ∀ t, Entry.comment t ∈ b → SpellsComment t := by
    clear hk
    induction hr with
    | nil => exact ⟨nofun, nofun⟩
    | @declaration ns rest value name important b hd _ ih =>
      obtain ⟨hname, hb⟩ := List.forall_mem_cons.mp hn
      obtain ⟨place, taken, hm, hi, ht, hv⟩ := Item.exists_of_declaration hd
      obtain ⟨hs, hne⟩ := spellsName h hm hname
      obtain ⟨hds, hcs⟩ := ih (h.of_isInfix (Item.nextDeclaration?_suffix hd).isInfix) hb
      refine ⟨fun d hd => ?_, fun t ht => hcs t ((List.mem_cons.mp ht).resolve_left nofun)⟩
      rcases List.mem_cons.mp hd with he | hd
      · cases he
        exact ⟨hs, hname, hne, spellsValue (h.of_isInfix hi) ht hv⟩
      · exact hds d hd
    | @comment ns rest text b hd _ ih =>
      obtain ⟨place, hm⟩ := Item.mem_of_comment_in_block hd
      obtain ⟨hds, hcs⟩ := ih (h.of_isInfix (Item.nextDeclaration?_suffix hd).isInfix) hn
      refine ⟨fun d hd => hds d ((List.mem_cons.mp hd).resolve_left nofun), fun t ht => ?_⟩
      rcases List.mem_cons.mp ht with he | ht
      · cases he
        exact spellsComment_of_mem h hm
      · exact hcs t ht
  exact ⟨hall.1, hall.2, hk⟩

end Sheet

end CustomProperties
