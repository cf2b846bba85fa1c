import CustomProperties.Proofs.Sheet.Bodies
import CustomProperties.Proofs.Sheet.Reading
import CustomProperties.Proofs.Syntax.Value

/-! # What the declarations of a sheet are read from

Every declaration of a sheet is read from consecutive nodes of some block. So a property that
consecutive nodes and the contents of blocks inherit is one of the nodes that it is read from.
-/

namespace CustomProperties.Sheet

open Syntax

/-- A property of nodes that consecutive ones of them and the contents of blocks inherit. -/
structure Inherited (p : List Node → Prop) : Prop where
  of_isInfix : ∀ {ns ms}, p ms → ns <:+: ms → p ns
  of_body? : ∀ {ns n content}, p ns → n ∈ ns → n.body? = some content → p content

namespace Inherited

variable {p : List Node → Prop} {ns rest content : List Node} {whole : Bool}

theorem afterDeclaration {item : BlockItem} (h : Inherited p) (hn : p ns)
    (hi : Item.nextDeclaration? ns = some (item, rest)) : p rest :=
  h.of_isInfix hn (Item.nextDeclaration?_suffix hi).isInfix

theorem afterRule {item : Item} (h : Inherited p) (hn : p ns)
    (hi : Item.nextRule? whole ns = some (item, rest)) : p rest :=
  h.of_isInfix hn (Item.nextRule?_suffix hi).isInfix

theorem ruleContent {item : Item} (h : Inherited p) (hn : p ns)
    (hi : Item.nextRule? whole ns = some (item, rest)) (hc : item.content? = some content) :
    p content := by
  obtain ⟨n, hm, hb⟩ := Item.exists_of_content? hi hc
  exact h.of_body? hn hm hb

end Inherited

section

variable {p : List Node → Prop} {q : Declaration → Prop} {ns : List Node} (h : Inherited p)
  (hq : ∀ {name taken value important}, p taken → Item.IsTaken taken →
    Item.readValue? taken = some (value, important) → q ⟨name, valueText value important⟩)
include h hq

theorem ReadsBody.forall_declarations {b : Body} (hr : ReadsBody ns b) (hn : p ns) :
    ∀ d ∈ b.declarations, q d := by
  induction hr with
  | nil => exact nofun
  | @declaration ns rest value name important b hd _ ih =>
    obtain ⟨-, taken, -, hi, ht, hv⟩ := Item.exists_of_declaration hd
    change ∀ d ∈ _ :: b.declarations, _
    exact List.forall_mem_cons.mpr ⟨hq (h.of_isInfix hn hi) ht hv, ih (h.afterDeclaration hn hd)⟩
  | comment hd _ ih => exact ih (h.afterDeclaration hn hd)

theorem ReadsStages.forall_declarations {stages : List Stage} (hr : ReadsStages ns stages)
    (hn : p ns) : ∀ st ∈ stages, ∀ d ∈ st.body.declarations, q d := by
  induction hr with
  | nil => exact nofun
  | comment hi _ ih => exact List.forall_mem_cons.mpr ⟨nofun, ih (h.afterRule hn hi)⟩
  | keyframe hi hb _ ih =>
    have hfirst := hb.forall_declarations h hq (h.ruleContent hn hi rfl)
    exact List.forall_mem_cons.mpr ⟨hfirst, ih (h.afterRule hn hi)⟩

theorem ReadsRules.forall_declarations {whole : Bool} {rs : List Rule} (hr : ReadsRules whole ns rs)
    (hn : p ns) : ∀ r ∈ rs, ∀ d ∈ r.declarations, q d := by
  induction hr with
  | nil => exact nofun
  | comment hi _ ih => exact List.forall_mem_cons.mpr ⟨nofun, ih (h.afterRule hn hi)⟩
  | style hi hb _ ih =>
    refine List.forall_mem_cons.mpr ⟨?_, ih (h.afterRule hn hi)⟩
    rw [Rule.declarations_style]
    exact hb.forall_declarations h hq (h.ruleContent hn hi rfl)
  | statement hi _ ih => exact List.forall_mem_cons.mpr ⟨nofun, ih (h.afterRule hn hi)⟩
  | keyframes hi _ hst _ ih =>
    refine List.forall_mem_cons.mpr ⟨fun d hd => ?_, ih (h.afterRule hn hi)⟩
    rw [Rule.declarations_keyframes] at hd
    obtain ⟨st, hm, hd⟩ := List.mem_flatMap.mp hd
    exact hst.forall_declarations h hq (h.ruleContent hn hi rfl) st hm d hd
  | fontFace hi _ hb _ ih =>
    refine List.forall_mem_cons.mpr ⟨?_, ih (h.afterRule hn hi)⟩
    rw [Rule.declarations_fontFace]
    exact hb.forall_declarations h hq (h.ruleContent hn hi rfl)
  | container hi _ _ _ ihc ih =>
    refine List.forall_mem_cons.mpr ⟨fun d hd => ?_, ih (h.afterRule hn hi)⟩
    rw [Rule.declarations_container] at hd
    obtain ⟨r, hr, hd⟩ := List.mem_flatMap.mp hd
    exact ihc (h.ruleContent hn hi rfl) r hr d hd
  | unknown hi _ _ ih => exact List.forall_mem_cons.mpr ⟨nofun, ih (h.afterRule hn hi)⟩

end

end CustomProperties.Sheet
