import CustomProperties.Chunks.Basic
import CustomProperties.Proofs.Sheet.Source
import CustomProperties.Proofs.Split.Commas
import CustomProperties.Proofs.Syntax.Standard
import CustomProperties.Proofs.Variables.Collection
import CustomProperties.Sheet.Write

/-! # Inert chunks contribute nothing

In a text without escapes a root rule is introduced by its selector and a definition by its
hyphens, just as the test for inert chunks looks for them. An escape can hide them: then a chunk
passes for inert that defines or uses a variable.
-/

namespace CustomProperties

open Syntax
open Syntax.Node (Within Reads)

/-! ### Definitions and the text of a sheet -/

/-- Hyphens stand somewhere after a root selector that no word character continues. -/
def Text.MayDefine (t : Text) : Prop :=
  ∃ x y, t = x ++ (Rule.rootSelector ++ y) ∧ y.head?.any isWord = false ∧ occurs "--" y = true

namespace Syntax

variable {s t rest : Text} {ns : List Node}

theorem infix_of_ident_mem {place name : Text} (h : Reads s ns rest)
    (hm : .token place (.ident name) ∈ ns) : name <:+: s := by
  obtain ⟨before, after, rfl⟩ := List.append_of_mem hm
  obtain ⟨t, hb, hn⟩ := h.exists_of_append
  generalize hk : Node.token place (.ident name) = n at hn
  cases hn with
  | token hs _ =>
    cases hk
    cases hs
    exact (List.prefix_append name _).isInfix.trans hb.suffix.isInfix
  | stray => cases hk
  | @nested _ _ _ _ _ o => cases o <;> contradiction

theorem eq_writeAll (h : Reads s ns t) (hs : '\\' ∉ s) (ht : t ≠ [])
    (hw : ∀ c ∈ respelledStarts, c ∉ Node.writeAll ns) : s = Node.writeAll ns ++ t := by
  have hp : none ≠ some (Kind.literal ['\\']) := nofun
  obtain ⟨used, left, rfl, hl, hc⟩ := h.copied hs hp
  obtain rfl : left = [] := hl.resolve_right ht
  have hu : used = Node.writeAll ns := by
    refine hc.eq_of_forall ?_
    rintro piece other ⟨⟨c, hc, hm⟩, -⟩
    exact ⟨c, List.mem_of_mem_head? hc, hw c hm⟩
  rw [hu, List.nil_append]

end Syntax

namespace Sheet

variable {source : Text} {ns rest prelude content : List Node} {whole : Bool}

theorem ReadsBody.exists_ident {b : Body} (h : ReadsBody ns b) {d : Declaration}
    (hd : d ∈ b.declarations) : ∃ place, .token place (.ident d.property) ∈ ns := by
  induction h with
  | nil => contradiction
  | declaration hi _ ih =>
    rcases List.mem_cons.mp hd with rfl | hd
    · exact (Item.of_nextDeclaration? hi).1
    · obtain ⟨place, hm⟩ := ih hd
      exact ⟨place, (Item.nextDeclaration?_suffix hi).mem hm⟩
  | comment hi _ ih =>
    obtain ⟨place, hm⟩ := ih hd
    exact ⟨place, (Item.nextDeclaration?_suffix hi).mem hm⟩

theorem exists_of_selectors (h : selectors prelude = [Rule.rootSelector]) :
    ∃ before after, Node.writeAll prelude = before ++ (Rule.rootSelector ++ after) ∧
      Split.IsPadding before ∧ Split.IsPadding after := by
  obtain ⟨x, y, he, hx, hy⟩ := Split.exists_of_commaList h
  obtain ⟨left, right, hs, hb⟩ := Text.exists_of_strip (Node.writeAll prelude)
  refine ⟨left ++ x, y ++ right, ?_, ?_, ?_⟩
  · have hw : Node.writeAll prelude = left ++ (x ++ (Rule.rootSelector ++ y) ++ right) :=
      hs.trans (congrArg (fun t => left ++ (t ++ right)) he)
    rw [hw]
    simp only [List.append_assoc]
  · exact Split.isPadding_append.mpr ⟨fun c hc => .inl (hb c (List.mem_append_left _ hc)), hx⟩
  · exact Split.isPadding_append.mpr ⟨hy, fun c hc => .inl (hb c (List.mem_append_right _ hc))⟩

/-- A root rule with a definition shows itself in the text. -/
theorem mayDefine_of_root {place : Text} {b : Body} {d : Declaration} (hs : '\\' ∉ source)
    (hn : Within source ns)
    (hi : Item.nextRule? whole ns = some (.rule place prelude content, rest))
    (hp : selectors prelude = [Rule.rootSelector]) (hb : ReadsBody content b)
    (hd : d ∈ b.declarations) (hdef : d.isDefinition = true) : Text.MayDefine source := by
  obtain ⟨n, hns, hnb⟩ := Item.of_nextRule? hi
  obtain ⟨t, u, ht, hr⟩ := hn.of_infix hns.isInfix
  obtain ⟨v, hpre, hblock⟩ := hr.exists_of_append
  obtain ⟨w, z, rfl, hcontent⟩ := hblock.exists_of_body? hnb
  obtain ⟨before, after, hw, hbefore, hafter⟩ := exists_of_selectors hp
  have hwrite : ∀ c ∈ respelledStarts, c ∉ Node.writeAll prelude := by
    intro c hc hm
    have hblank := of_mem_respelledStarts (q := (!Text.isBlank ·)) (by decide) hc
    have hcomma := of_mem_respelledStarts (q := (· != ',')) (by decide) hc
    have hroot := of_mem_respelledStarts (q := (!Rule.rootSelector.contains ·)) (by decide) hc
    rw [Bool.not_eq_true'] at hblank
    rw [bne_iff_ne] at hcomma
    rw [hw, List.mem_append, List.mem_append] at hm
    rcases hm with hm | hm | hm
    · exact hbefore.not_mem hblank hcomma hm
    · simp [hm] at hroot
    · exact hafter.not_mem hblank hcomma hm
  have he := eq_writeAll hpre (fun hm => hs (ht.mem hm)) (List.cons_ne_nil _ _) hwrite
  obtain ⟨place', hident⟩ := hb.exists_ident hd
  have hname : d.property <:+: w := infix_of_ident_mem hcontent hident
  obtain ⟨skipped, rfl⟩ := ht
  refine ⟨skipped ++ before, after ++ '\x7b' :: w, ?_, ?_, ?_⟩
  · rw [he, hw]
    simp only [List.append_assoc]
  · have hc : Text.isWord '\x7b' = false := by decide
    exact hafter.isWord_head? hc
  · obtain ⟨tail, htail⟩ := Option.isSome_iff_exists.mp hdef
    have hyphens : "--" <:+: d.property := ⟨[], tail, (Text.dropPrefix?_eq_some.mp htail).symm⟩
    have hafter : w <:+ after ++ '\x7b' :: w :=
      (List.suffix_cons _ w).trans (List.suffix_append after _)
    exact Text.occurs_iff.mpr ((hyphens.trans hname).trans hafter.isInfix)

theorem ReadsRules.definitions_eq_nil {rs : List Rule} (hs : '\\' ∉ source)
    (hd : ¬Text.MayDefine source) (h : ReadsRules whole ns rs) (hn : Within source ns) :
    ∀ r ∈ rs, r.definitions = [] := by
  induction h with
  | nil => exact nofun
  | @style whole ns rest prelude content place b rs hi hb _ ih =>
    refine List.forall_mem_cons.mpr ⟨?_, ih (hn.afterRule hi)⟩
    rw [Rule.definitions]
    split
    next hroot =>
      refine List.filter_eq_nil_iff.mpr fun d hmem hdef => hd ?_
      exact mayDefine_of_root hs hn hi (beq_iff_eq.mp hroot) hb hmem hdef
    next => rfl
  | comment hi _ ih => exact List.forall_mem_cons.mpr ⟨rfl, ih (hn.afterRule hi)⟩
  | statement hi _ ih => exact List.forall_mem_cons.mpr ⟨rfl, ih (hn.afterRule hi)⟩
  | keyframes hi _ _ _ ih => exact List.forall_mem_cons.mpr ⟨rfl, ih (hn.afterRule hi)⟩
  | fontFace hi _ _ _ ih => exact List.forall_mem_cons.mpr ⟨rfl, ih (hn.afterRule hi)⟩
  | container hi _ _ _ _ ih => exact List.forall_mem_cons.mpr ⟨rfl, ih (hn.afterRule hi)⟩
  | unknown hi _ _ ih => exact List.forall_mem_cons.mpr ⟨rfl, ih (hn.afterRule hi)⟩

end Sheet

namespace Chunks

variable {t source : Text}

theorem exists_of_afterRoot? (x : Text) {y : Text} (hy : y.head?.any Text.isWord = false) :
    ∃ rest, afterRoot? (x ++ (Rule.rootSelector ++ y)) = some rest ∧ y <:+ rest := by
  induction x with
  | nil =>
    have hr : Rule.rootSelector ++ y = ':' :: ("root" ++ y) := rfl
    have hd : Text.dropPrefix? ":root" (':' :: ("root" ++ y)) = some y := rfl
    refine ⟨y, ?_, List.suffix_refl y⟩
    rw [List.nil_append, hr, afterRoot?, hd]
    exact if_neg (by rw [hy]; decide)
  | cons c x ih =>
    rw [List.cons_append, afterRoot?]
    split
    next rest hd =>
      split
      next => exact ih
      next =>
        have he := Text.dropPrefix?_eq_some.mp hd
        have hl : y.length ≤ rest.length := by
          have hl := congrArg List.length he
          have hr : Rule.rootSelector.length = 5 := rfl
          have hr' : (":root" : Text).length = 5 := rfl
          simp only [List.length_cons, List.length_append] at hl
          omega
        have hys : y <:+ c :: (x ++ (Rule.rootSelector ++ y)) :=
          ⟨c :: (x ++ Rule.rootSelector), by simp⟩
        exact ⟨rest, rfl, List.suffix_of_suffix_length_le hys ⟨_, he.symm⟩ hl⟩
    next => exact ih

theorem eq_of_afterRoot? {rest : Text} (h : afterRoot? t = some rest) :
    ∃ x, t = x ++ (Rule.rootSelector ++ rest) ∧ rest.head?.any Text.isWord = false := by
  induction t with
  | nil => contradiction
  | cons c t ih =>
    have hi (h : afterRoot? t = some rest) :
        ∃ x, c :: t = x ++ (Rule.rootSelector ++ rest) ∧ rest.head?.any Text.isWord = false := by
      obtain ⟨x, rfl, hw⟩ := ih h
      exact ⟨c :: x, rfl, hw⟩
    rw [afterRoot?] at h
    split at h
    next r hd =>
      split at h
      next => exact hi h
      next hw =>
        cases h
        have he := Text.dropPrefix?_eq_some.mp hd
        exact ⟨[], he, eq_false_of_ne_true hw⟩
    next => exact hi h

theorem mayDefine_iff : mayDefine t = true ↔ t.MayDefine := by
  unfold mayDefine
  constructor
  · intro h
    obtain ⟨rest, hr, ho⟩ := (Option.any_eq_true _ _).mp h
    obtain ⟨x, he, hw⟩ := eq_of_afterRoot? hr
    exact ⟨x, rest, he, hw, ho⟩
  · rintro ⟨x, y, rfl, hw, ho⟩
    obtain ⟨rest, hr, hy⟩ := exists_of_afterRoot? x hw
    rw [hr]
    exact Text.occurs_iff.mpr ((Text.occurs_iff.mp ho).trans hy.isInfix)

theorem isInert_iff : isInert t = true ↔ Reference.occursIn t = false ∧ ¬t.MayDefine := by
  rw [isInert, Bool.and_eq_true, Bool.not_eq_true', Bool.not_eq_true', ← mayDefine_iff,
    Bool.not_eq_true]

theorem not_mayDefine_standardize (h : ¬t.MayDefine) : ¬(standardize t).MayDefine := by
  rintro ⟨x, y, he, hw, ho⟩
  have hr : Rule.rootSelector = ':' :: "root" := rfl
  have hc := copies_standardize t
  rw [he, hr] at hc
  obtain ⟨x', y', rfl, hy⟩ := Text.Copies.exists_of_infix
    (fun _ _ hu => hu.not_mem (by decide) (by decide)) hc
  refine h ⟨x', y', by rw [hr], isWord_head?_of_copies hy hw, Text.occurs_iff.mpr ?_⟩
  have hh : ("--" : Text) = '-' :: ['-'] := rfl
  rw [Text.occurs_iff, hh] at ho
  exact Text.Copies.infix_of_infix (fun _ _ hu => hu.not_mem (by decide) (by decide)) hy ho

theorem occursIn_standardize (h : Reference.occursIn t = false) :
    Reference.occursIn (standardize t) = false := by
  have ho : Reference.opening = 'v' :: "ar(" := rfl
  unfold Reference.occursIn at h ⊢
  rw [Text.occurs_eq_false_iff, ho] at h ⊢
  exact fun hi => h (infix_of_infix_standardize (by decide) (by decide) hi)

/-- A chunk that passes for inert contributes nothing if no escape stands in it. -/
theorem inert_contributes_nothing {css : Text} {s : Sheet} (hi : isInert css = true)
    (hs : '\\' ∉ css) (hr : Sheet.read css = .ok s) :
    s.definitions = [] ∧ (∀ preserve, (s.collect .empty preserve).bindings = .empty) ∧
      ∀ d ∈ s.declarations, d.isReference = false := by
  obtain ⟨hv, hd⟩ := isInert_iff.mp hi
  have hs' : '\\' ∉ standardize css :=
    fun hm => hs (mem_of_mem_standardize (by decide) (by decide) hm)
  have hrules := Sheet.readsRules_of_read hr
  have hn : Within (standardize css) (Node.readAll (standardize css)) :=
    ⟨_, _, List.suffix_refl _, Node.reads_readAll hs'⟩
  have hdefs : s.definitions = [] :=
    List.flatMap_eq_nil_iff.mpr
      (hrules.definitions_eq_nil hs' (not_mayDefine_standardize hd) hn)
  refine ⟨hdefs, fun preserve => ?_, fun d hmem => ?_⟩
  · rw [Sheet.collect_eq]
    dsimp only
    rw [Sheet.bindings, hdefs]
    rfl
  · rw [Sheet.declarations_eq] at hmem
    obtain ⟨r, hr, hmem⟩ := List.mem_flatMap.mp hmem
    exact hrules.isReference_eq_false hs' (occursIn_standardize hv) hn r hr d hmem

/-- A root rule and a definition, but not in one another. -/
theorem inert_contributes_nothing_of_separate :
    let css : Text := "a" ++ inBraces "--x:1px" ++ ":root" ++ inBraces "c:d"
    let s : Sheet := [.style ["a"] [.declaration ⟨"--x", "1px"⟩],
      .root [.declaration ⟨"c", "d"⟩]]
    (isInert css = true ∧ '\\' ∉ css ∧ Sheet.read css = .ok s) ∧ s.definitions = [] ∧
      (∀ preserve, (s.collect .empty preserve).bindings = .empty) ∧
      ∀ d ∈ s.declarations, d.isReference = false := by
  intro css s
  have hi : isInert css = true := by decide +kernel
  have hs : '\\' ∉ css := by decide
  have hr : Sheet.read css = .ok s := by decide +kernel
  exact ⟨⟨hi, hs, hr⟩, inert_contributes_nothing hi hs hr⟩

/-- With an escape in the selector and one in the name of the function, a chunk passes for inert
that defines a variable and refers to it. -/
theorem inert_contributes_with_escapes :
    let css : Text := ":r\\6f ot" ++ inBraces "--x:1px" ++ "a" ++ inBraces "b:v\\61r(--x)"
    let s : Sheet := [.root [.declaration ⟨"--x", "1px"⟩],
      .style ["a"] [.declaration ⟨"b", "var(--x)"⟩]]
    isInert css = true ∧ Sheet.read css = .ok s ∧ s.definitions = [⟨"--x", "1px"⟩] ∧
      (s.collect .empty true).bindings = .ofList [("--x", "1px")] ∧
      s.references = [⟨"b", "var(--x)"⟩] := by
  decide +kernel

end Chunks

end CustomProperties
