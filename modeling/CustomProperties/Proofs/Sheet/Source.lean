import CustomProperties.Proofs.Sheet.Declarations
import CustomProperties.Proofs.Syntax.Copied
import CustomProperties.Proofs.Text.Occurrence
import CustomProperties.Proofs.Text.Strip

/-! # References and the text of a sheet

Without escapes, every value of a sheet is written as a copy of a part of the text. No change of
spelling can be part of the start of a reference, so a text without one has no declaration that
refers to a variable.
-/

namespace CustomProperties

open Syntax
open Syntax.Node (Within)

namespace Text

theorem occurs_mono {pattern t u : Text} (h : t <:+: u) (hu : occurs pattern u = false) :
    occurs pattern t = false :=
  occurs_eq_false_iff.mpr fun ht => occurs_eq_false_iff.mp hu (ht.trans h)

end Text

variable {source : Text} {ns : List Node}

/-- The start of a reference cannot come from a change of spelling. -/
theorem occursIn_writeAll (h : Within source ns) (hs : '\\' ∉ source)
    (hv : Reference.occursIn source = false) :
    Reference.occursIn (Node.writeAll ns) = false := by
  obtain ⟨t, rest, ht, hr⟩ := h
  have hp : none ≠ some (Kind.literal ['\\']) := nofun
  obtain ⟨used, left, rfl, -, hc⟩ := hr.copied (fun hm => hs (ht.mem hm)) hp
  have ho : Reference.opening = 'v' :: "ar(" := rfl
  have hk : ∀ piece other, Respells piece other →
      'v' ∉ other ∧ ∃ d ∈ other.head?, d ∉ 'v' :: ("ar(" : Text) := by
    rintro piece other ⟨⟨d, hd, hm⟩, hn⟩
    have hd' := of_mem_respelledStarts (q := fun d => !('v' :: ("ar(" : Text)).contains d)
      (by decide) hm
    exact ⟨hn, d, hd, by simpa using hd'⟩
  unfold Reference.occursIn at hv ⊢
  rw [ho, Text.occurs_eq_false_iff] at hv ⊢
  intro hi
  have hu : used <:+: source := (List.prefix_append used _).isInfix.trans ht.isInfix
  exact hv ((Text.Copies.infix_of_infix hk hc hi).trans hu)

theorem isReference_valueText (name : Text) (important : Bool) (h : Within source ns)
    (hs : '\\' ∉ source) (hv : Reference.occursIn source = false) :
    Declaration.isReference ⟨name, Sheet.valueText ns important⟩ = false := by
  have hw : Reference.occursIn (Sheet.writtenText ns) = false :=
    Text.occurs_mono (Text.infix_strip _) (occursIn_writeAll h hs hv)
  unfold Declaration.isReference Sheet.valueText
  dsimp only
  split
  next =>
    -- the mark of importance starts with a blank, which no reference starts with
    refine Text.occurs_append_eq_false hw (by decide) fun u w _ hn he _ hp => ?_
    obtain ⟨c, w, rfl⟩ := List.exists_cons_of_ne_nil hn
    obtain rfl : c = ' ' := by
      have hb : (" !important" : Text) = ' ' :: "!important" := rfl
      rw [hb, List.cons_prefix_cons] at hp
      exact hp.1
    have hb : ' ' ∈ Reference.opening := by
      rw [he]
      simp
    exact absurd hb (by decide)
  next => exact hw

namespace Sheet

theorem inherited_within (source : Text) : Inherited (Within source) :=
  ⟨Within.of_infix, Within.of_body?⟩

theorem ReadsRules.isReference_eq_false (hs : '\\' ∉ source)
    (hv : Reference.occursIn source = false) {whole : Bool} {rs : List Rule}
    (h : ReadsRules whole ns rs) (hn : Within source ns) :
    ∀ r ∈ rs, ∀ d ∈ r.declarations, d.isReference = false := by
  refine h.forall_declarations (inherited_within source) (fun ht _ hr => ?_) hn
  exact isReference_valueText _ _ (ht.of_infix (Item.prefix_of_readValue? hr).isInfix) hs hv

end Sheet

end CustomProperties
