import CustomProperties.Proofs.Parens.Balance
import CustomProperties.Proofs.Resolution.Derivation
import CustomProperties.Proofs.Split.Commas
import CustomProperties.Proofs.Text.Occurrence

/-! # References in place

What is put in the place of a reference depends on the reference alone, and so does what becomes of
the text on both sides of it. Only a group that is still open before the reference would take it in.
-/

namespace CustomProperties

namespace Reference

open Split (delimiters)

/-- The body of a reference, with blanks around the name. -/
def bodyOf (lead name trail : Text) (fallback : Option Text) : Text :=
  lead ++ (name ++ (trail ++ fallback.elim [] (',' :: ·)))

def written (lead name trail : Text) (fallback : Option Text) : Text :=
  opening ++ (bodyOf lead name trail fallback ++ [')'])

variable {lead name trail : Text} {fallback : Option Text}

theorem ofBody?_bodyOf (hne : name ≠ []) (hstrip : Text.strip name = name)
    (hn : ∀ c ∈ name, c ∉ delimiters) (hl : ∀ c ∈ lead, Text.isBlank c = true)
    (ht : ∀ c ∈ trail, Text.isBlank c = true) :
    ofBody? (bodyOf lead name trail fallback) = some ⟨name, fallback.map Text.stripLeft⟩ := by
  have hb : (bodyOf lead name trail fallback).all Text.isBlank = false := by
    rw [← Bool.not_eq_true]
    intro hall
    have hmem : ∀ c ∈ name, Text.isBlank c = true := fun c hc =>
      List.all_eq_true.mp hall c (by simp [bodyOf, hc])
    have hs : Text.strip name = [] := Text.strip_append_of_blank [] hmem
    exact hne (hstrip.symm.trans hs)
  have hs : Split.seals [','] Split.start (lead ++ (name ++ trail)) = true := by
    rw [Split.seals_blank_append hl Split.proper_start,
      Split.seals_append_blank ht Split.proper_start]
    exact Split.seals_of_not_mem hn
  have hk : Text.strip (lead ++ (name ++ trail)) = name := by
    rw [Text.strip_blank_append hl, Text.strip_append_of_blank _ ht, hstrip]
  rw [ofBody?, if_neg (by simp [hb]), Split.split]
  cases fallback with
  | none =>
    have he : bodyOf lead name trail none = lead ++ (name ++ trail) := by simp [bodyOf]
    rw [he, Split.splitFrom_of_seals hs]
    simp [hk]
  | some f =>
    have he : bodyOf lead name trail (some f) = lead ++ (name ++ trail) ++ ',' :: f := by
      simp [bodyOf]
    rw [he, Split.splitFrom_of_seals_append hs (by decide)]
    simp [hk]

theorem plain_of_blank {gap : Text} (h : ∀ c ∈ gap, Text.isBlank c = true) : Parens.Plain gap :=
  ⟨fun hm => absurd (h _ hm) (by decide), fun hm => absurd (h _ hm) (by decide)⟩

theorem balanced_bodyOf (hn : ∀ c ∈ name, c ∉ delimiters)
    (hl : ∀ c ∈ lead, Text.isBlank c = true) (ht : ∀ c ∈ trail, Text.isBlank c = true)
    (hf : ∀ f ∈ fallback, Parens.balanced 0 f = true) :
    Parens.balanced 0 (bodyOf lead name trail fallback) = true := by
  have hname : Parens.Plain name :=
    ⟨fun hm => hn _ hm (by decide), fun hm => hn _ hm (by decide)⟩
  rw [bodyOf, (plain_of_blank hl).balanced_append, hname.balanced_append,
    (plain_of_blank ht).balanced_append]
  cases fallback with
  | none => rfl
  | some f => exact hf f rfl

end Reference

namespace Resolution

open Reference (opening occursIn)
open Split (delimiters)

inductive ClosesGroups : Text → Prop

  | plain {t : Text} : Text.breakOn opening t = none → ClosesGroups t

  | reference {t before after : Text} : Text.breakOn opening t = some (before, after) →
      (Parens.group after).closed = true → ClosesGroups (Parens.group after).rest →
      ClosesGroups t

variable {b : Bindings} {chain : List Text} {value rest : Text}

/-- The whole value matters for warnings only. -/
theorem text_resolveFrom (b : Bindings) (chain : List Text) (value value' rest : Text) :
    (resolveFrom b chain value rest).text = (resolveFrom b chain value' rest).text := by
  induction hl : rest.length using Nat.strong_induction_on generalizing rest with
  | _ n ih =>
    cases h : Text.breakOn opening rest with
    | none => rw [resolveFrom_of_none h, resolveFrom_of_none h]
    | some cut =>
      obtain ⟨before, after⟩ := cut
      have hr : (Parens.group after).rest.length < n :=
        hl ▸ Nat.lt_of_le_of_lt (Parens.length_rest_le after) (length_after_lt h)
      rw [resolveFrom_of_some h, resolveFrom_of_some h]
      exact congrArg (before ++ (substitute b chain (Parens.group after)).text ++ ·) (ih _ hr _ rfl)

/-- The opening of a reference ends the text before it, as no opening can start earlier and reach
into it. -/
theorem ClosesGroups.text_append {pre : Text} (h : ClosesGroups pre) (t : Text) :
    (resolveFrom b chain value (pre ++ (opening ++ t))).text =
      (resolveFrom b chain value pre).text ++ (resolveFrom b chain value (opening ++ t)).text := by
  have hcut (x y : Text) (hx : occursIn x = false) :
      Text.breakOn opening (x ++ (opening ++ y)) = some (x, y) :=
    Text.breakOn_of_not_occurs (by decide) y hx
  induction h with
  | @plain pre hn =>
    have hempty : Text.breakOn opening (opening ++ t) = some ([], t) := hcut [] t rfl
    rw [resolveFrom_of_none hn, resolveFrom_of_some (hcut pre t (Text.breakOn_eq_none_iff.mp hn)),
      resolveFrom_of_some hempty]
    simp [splice]
  | @reference pre before after hb hc _ ih =>
    have hx : occursIn before = false := Text.not_occurs_of_breakOn hb
    have hpre : pre ++ (opening ++ t) = before ++ (opening ++ (after ++ (opening ++ t))) := by
      rw [Text.breakOn_append hb]
      simp only [List.append_assoc]
    have hg : Parens.group (after ++ (opening ++ t)) =
        { Parens.group after with rest := (Parens.group after).rest ++ (opening ++ t) } :=
      Parens.close_append hc _
    have hsub : substitute b chain (Parens.group (after ++ (opening ++ t))) =
        substitute b chain (Parens.group after) := by
      rw [hg]
      rfl
    rw [hpre, resolveFrom_of_some (hcut _ _ hx), resolveFrom_of_some hb, hsub, hg]
    simp only [splice, ih, List.append_assoc]

/-- What stands in the place of a reference to a name: the resolved value of the name, else the
resolved fallback, else the reference itself. -/
def inPlaceOf (b : Bindings) (name : Text) (fallback : Option Text) (reference : Text) : Text :=
  match b.find? name, fallback with
  | some v, _ => (resolveFrom b [name] v v).text
  | none, some f => (resolve b (Text.stripLeft f)).text
  | none, none => reference

theorem text_substitute_bodyOf {lead name trail post : Text} {fallback : Option Text}
    (h : Reference.ofBody? (Reference.bodyOf lead name trail fallback) =
      some ⟨name, fallback.map Text.stripLeft⟩) :
    (substitute b [] ⟨Reference.bodyOf lead name trail fallback, true, post⟩).text =
      inPlaceOf b name fallback (Reference.written lead name trail fallback) := by
  rw [substitute, h]
  unfold inPlaceOf
  dsimp only
  rw [if_neg List.not_mem_nil]
  cases b.find? name with
  | some v => rfl
  | none => cases fallback <;> rfl

/-- A reference resolves in its place, whatever stands around it, and text without references is
kept. -/
theorem resolve_reference_in_place {b : Bindings} {pre lead name trail post : Text}
    {fallback : Option Text} (hpre : ClosesGroups pre) (hne : name ≠ [])
    (hstrip : Text.strip name = name) (hn : ∀ c ∈ name, c ∉ delimiters)
    (hl : ∀ c ∈ lead, Text.isBlank c = true) (ht : ∀ c ∈ trail, Text.isBlank c = true)
    (hf : ∀ f ∈ fallback, f.count '(' = f.count ')' ∧ ∀ u, u <+: f → u.count ')' ≤ u.count '(') :
    let reference := Reference.written lead name trail fallback
    (resolve b (pre ++ (reference ++ post))).text =
      (resolve b pre).text ++ (inPlaceOf b name fallback reference ++ (resolve b post).text) ∧
    ∀ t, occursIn t = false → (resolve b t).text = t := by
  intro reference
  have hbal : Parens.balanced 0 (Reference.bodyOf lead name trail fallback) = true :=
    Reference.balanced_bodyOf hn hl ht fun f hm => Parens.balanced_iff.mpr (by simpa using hf f hm)
  have hr : reference ++ post =
      opening ++ (Reference.bodyOf lead name trail fallback ++ ')' :: post) := by
    simp [reference, Reference.written]
  have hcut : Text.breakOn opening (opening ++ (Reference.bodyOf lead name trail fallback ++
      ')' :: post)) = some ([], Reference.bodyOf lead name trail fallback ++ ')' :: post) :=
    Text.breakOn_of_not_occurs (x := []) (by decide) _ rfl
  have hown : (substitute b [] ⟨Reference.bodyOf lead name trail fallback, true, post⟩).text =
      inPlaceOf b name fallback reference :=
    text_substitute_bodyOf (Reference.ofBody?_bodyOf hne hstrip hn hl ht)
  constructor
  · rw [resolve, hr, hpre.text_append, resolveFrom_of_some hcut, Parens.group_of_balanced hbal]
    simp only [splice, List.nil_append]
    rw [hown, resolve, text_resolveFrom b [] _ pre pre, resolve, text_resolveFrom b [] _ post post]
  · intro t ht
    rw [resolve, resolveFrom_of_none (Text.breakOn_eq_none_iff.mpr ht)]

/-- The fallback has a reference, a quote and a bracket that nothing closes, and an open group
follows. -/
theorem resolve_reference_in_place_of_fallback :
    let b := Bindings.ofList [("--a", "2px"), ("--e", "")]
    let pre : Text := "calc(1px + var(--a)) var(--e) my-"
    let fallback : Text := " f(var(--a), [)' "
    let post : Text := " (var(--a"
    let reference := Reference.written " " "--x" "\n" (some fallback)
    (ClosesGroups pre ∧ Text.strip ("--x" : Text) = "--x" ∧
      (∀ c ∈ ("--x" : Text), c ∉ delimiters) ∧
      ∀ f ∈ some fallback, f.count '(' = f.count ')' ∧ ∀ u, u <+: f → u.count ')' ≤ u.count '(') ∧
    (resolve b (pre ++ (reference ++ post))).text =
      "calc(1px + 2px)  my-f(2px, [)'  (2px" := by
  intro b pre fallback post reference
  have hpre : ClosesGroups pre := by
    let first : Text := "--a)) var(--e) my-"
    let second : Text := "--e) my-"
    have hfirst : Text.breakOn opening pre = some ("calc(1px + ".toList, first) := by decide
    have hsecond : Text.breakOn opening (Parens.group first).rest = some (") ".toList, second) := by
      decide
    have hend : Text.breakOn opening (Parens.group second).rest = none := by decide
    exact .reference hfirst (by decide) (.reference hsecond (by decide) (.plain hend))
  have hstrip : Text.strip ("--x" : Text) = "--x" := by decide
  have hn : ∀ c ∈ ("--x" : Text), c ∉ delimiters := by decide
  have hf : ∀ f ∈ some fallback,
      f.count '(' = f.count ')' ∧ ∀ u, u <+: f → u.count ')' ≤ u.count '(' := by
    rintro f hm
    obtain rfl := Option.some.inj hm
    have hb : Parens.balanced 0 fallback = true := by decide
    simpa using Parens.balanced_iff.mp hb
  have hl : ∀ c ∈ (" " : Text), Text.isBlank c = true := by decide
  have ht : ∀ c ∈ ("\n" : Text), Text.isBlank c = true := by decide
  refine ⟨⟨hpre, hstrip, hn, hf⟩, ?_⟩
  rw [(resolve_reference_in_place hpre (by decide) hstrip hn hl ht hf).1]
  decide +kernel

end Resolution

end CustomProperties
