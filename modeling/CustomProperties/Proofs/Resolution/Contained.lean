import CustomProperties.Proofs.Resolution.Derivation
import CustomProperties.Proofs.Syntax.Contained

/-! # Resolved values are contained

A value may be put in the place of a reference if it is contained, so that it has no effect on how
the text around it is read. What is known behind a reference is then the same for every value, and
a resolved value is read as its text was around the references.
-/

namespace CustomProperties

open Syntax

namespace Syntax

/-- What is known behind a reference. It stands apart from names, and its value ends in no slash. -/
def Behind.afterReference? : Behind → Option Behind
  | .word [] => some (.unknown .clear)
  | .slash => some (.unknown .slash)
  | .start => some (.unknown .inherited)
  | _ => none

def Behind.isFit : Behind → Bool
  | .slash => false
  | .unknown .slash => false
  | _ => true

namespace Reader

/-- Read a value around its references. The references themselves have to be contained too, since
those that cannot be resolved stay. -/
def runAround? (marks : Bool) (s : Reader) (rest : Text) : Option Reader :=
  match _ : Text.breakOn Reference.opening rest with
  | none => s.run? marks rest
  | some (before, after) =>
    match s.run? marks before with
    | none => none
    | some r =>
      match r.behind.afterReference? with
      | none => none
      | some behind =>
        let g := Parens.group after
        if r.mode = .plain ∧
            r.run? marks (Reference.opening ++ g.tail) = some { r with behind := .word [] } then
          runAround? marks { r with behind } g.rest
        else none
termination_by rest.length
decreasing_by
  exact Nat.lt_of_le_of_lt (Parens.length_rest_le after) (Resolution.length_after_lt ‹_›)

variable {marks : Bool} {s s' r : Reader} {rest before after : Text}

theorem runAround?_of_none (h : Text.breakOn Reference.opening rest = none) :
    s.runAround? marks rest = s.run? marks rest := by
  rw [runAround?]
  split
  next => rfl
  next hb =>
    rw [h] at hb
    contradiction

theorem exists_of_runAround? (h : Text.breakOn Reference.opening rest = some (before, after))
    (hr : s.runAround? marks rest = some s') :
    ∃ r behind, s.run? marks before = some r ∧ r.behind.afterReference? = some behind ∧
      r.mode = .plain ∧
      r.run? marks (Reference.opening ++ (Parens.group after).tail) = some { r with behind := .word [] } ∧
      { r with behind }.runAround? marks (Parens.group after).rest = some s' := by
  rw [runAround?] at hr
  split at hr
  next hb =>
    rw [h] at hb
    contradiction
  next hb =>
    rw [h] at hb
    cases hb
    split at hr
    next => contradiction
    next r hrun =>
      split at hr
      next => contradiction
      next behind hbehind =>
        dsimp only at hr
        split at hr
        next hk => exact ⟨r, behind, hrun, hbehind, hk.1, hk.2, hr⟩
        next => contradiction

end Reader

end Syntax

namespace Resolution

/-- Whether a text may stand in the place of a reference. -/
def isContained (marks : Bool) (v : Text) : Bool :=
  (Reader.start.runAround? marks v).any fun s => s.isOutside && s.behind.isFit

/-- The values and fallbacks that are put in the place of references, and those in them. -/
def ingredients (b : Bindings) (chain : List Text) (rest : Text) : List Text :=
  match _ : Text.breakOn Reference.opening rest with
  | none => []
  | some (_, after) =>
    let g := Parens.group after
    let own : List Text :=
      match _ : Reference.ofBody? g.body with
      | none => []
      | some r =>
        if _ : r.name ∈ chain then []
        else
          match _ : b.find? r.name with
          | some v => v :: ingredients b (r.name :: chain) v
          | none =>
            match _ : r.fallback with
            | some f => f :: ingredients b chain f
            | none => []
    own ++ ingredients b chain g.rest
termination_by work b chain rest
decreasing_by
  · exact work_value_lt ‹_› ‹_›
  · exact work_lt (Nat.lt_of_le_of_lt (Reference.length_fallback_le ‹_› ‹_›)
      (Nat.lt_of_le_of_lt (Parens.length_body_le after) (length_after_lt ‹_›)))
  · exact work_lt (Nat.lt_of_le_of_lt (Parens.length_rest_le after) (length_after_lt ‹_›))

variable {b : Bindings} {chain : List Text} {value rest before after v f : Text}

theorem ingredients_of_some (h : Text.breakOn Reference.opening rest = some (before, after)) :
    ingredients b chain rest =
      (match Reference.ofBody? (Parens.group after).body with
        | none => []
        | some r =>
          if r.name ∈ chain then []
          else
            match b.find? r.name, r.fallback with
            | some v, _ => v :: ingredients b (r.name :: chain) v
            | none, some f => f :: ingredients b chain f
            | none, none => []) ++ ingredients b chain (Parens.group after).rest := by
  rw [ingredients]
  split
  next hb =>
    rw [h] at hb
    contradiction
  next hb =>
    rw [h] at hb
    cases hb
    dsimp only
    congr 1
    split
    next hr => rw [hr]
    next r hr =>
      rw [hr]
      dsimp only
      split
      next => rfl
      next =>
        split
        next hv => rw [hv]
        next hv =>
          rw [hv]
          split
          next hf => rw [hf]
          next hf => rw [hf]

theorem subset_ingredients (h : Text.breakOn Reference.opening rest = some (before, after)) :
    ingredients b chain (Parens.group after).rest ⊆ ingredients b chain rest := by
  rw [ingredients_of_some h]
  exact List.subset_append_right _ _

theorem subset_of_defined {r : Reference}
    (h : Text.breakOn Reference.opening rest = some (before, after))
    (hr : Reference.ofBody? (Parens.group after).body = some r) (hc : r.name ∉ chain)
    (hv : b.find? r.name = some v) :
    v :: ingredients b (r.name :: chain) v ⊆ ingredients b chain rest := by
  rw [ingredients_of_some h, hr]
  dsimp only
  rw [if_neg hc, hv]
  exact List.subset_append_left _ _

theorem subset_of_fallback {r : Reference}
    (h : Text.breakOn Reference.opening rest = some (before, after))
    (hr : Reference.ofBody? (Parens.group after).body = some r) (hc : r.name ∉ chain)
    (hv : b.find? r.name = none) (hf : r.fallback = some f) :
    f :: ingredients b chain f ⊆ ingredients b chain rest := by
  rw [ingredients_of_some h, hr]
  dsimp only
  rw [if_neg hc, hv, hf]
  exact List.subset_append_left _ _

/-! ### Behind a reference -/

variable {outer : List Bracket} {slashed : Prop} {marks : Bool} {s s' r : Reader} {behind : Behind}

theorem covers_kept (hb : s.behind.afterReference? = some behind)
    (h : Reader.Covers outer slashed { s with behind := .word [] } r) :
    Reader.Covers outer slashed { s with behind } r := by
  refine ⟨h.brackets, h.mode, fun hm => ?_⟩
  have hw := h.behind hm
  generalize s.behind = d at hb
  generalize r.behind = e at hw
  cases hw with
  | word w =>
    unfold Behind.afterReference? at hb
    split at hb <;> cases hb <;> exact .unknown _ _

theorem covers_start (hb : s.behind.afterReference? = some behind) (hm : s.mode = .plain)
    (h : Reader.Covers outer slashed s r) :
    Reader.Covers r.brackets (r.behind = .slash) Reader.start r := by
  refine ⟨rfl, h.mode.trans hm, fun _ => ?_⟩
  have hw := h.behind hm
  change Behind.Covers _ .start _
  generalize s.behind = d at hb hw
  generalize r.behind = e at hw
  cases hw with
  | word w =>
    cases w with
    | nil => exact .start
    | cons => contradiction
  | slash => exact .startSlash rfl
  | start => exact .start
  | startSlash => exact .startSlash rfl
  | _ => contradiction

theorem slash_of_covers {d e : Behind} (hf : d.isFit = true) (h : d.Covers (e = .slash) .slash) :
    e = .slash := by
  cases h with
  | startSlash he => exact he
  | inherited he => exact he
  | _ => contradiction

theorem covers_behind {r' : Reader} (hb : s.behind.afterReference? = some behind)
    (hm : s.mode = .plain) (h : Reader.Covers outer slashed s r) (ho : s'.isOutside = true)
    (hf : s'.behind.isFit = true) (h' : Reader.Covers r.brackets (r.behind = .slash) s' r') :
    Reader.Covers outer slashed { s with behind } r' := by
  obtain ⟨hbs, hms⟩ := Reader.of_isOutside ho
  refine ⟨?_, h'.mode.trans (hms.trans hm.symm), fun _ => ?_⟩
  · rw [h'.brackets, hbs, List.nil_append, h.brackets]
  · have hw := h.behind hm
    have hw' := h'.behind hms
    have hword : ∃ e, behind = .unknown e := by
      unfold Behind.afterReference? at hb
      split at hb <;> cases hb <;> exact ⟨_, rfl⟩
    obtain ⟨e, rfl⟩ := hword
    cases hr' : r'.behind with
    | word w => exact .unknown e w
    | slash =>
      rw [hr'] at hw'
      rw [slash_of_covers hf hw'] at hw
      generalize s.behind = d at hb hw
      cases hw with
      | slash =>
        cases hb
        exact .unknownSlash
      | startSlash hs =>
        cases hb
        exact .inherited hs
      | _ => contradiction
    | _ =>
      rw [hr'] at hw'
      generalize s'.behind = d' at hw'
      contradiction

/-- What is known around the references of the first text holds of the second one. -/
def Agrees (marks : Bool) (rest text : Text) : Prop :=
  ∀ ⦃outer : List Bracket⦄ ⦃slashed : Prop⦄ ⦃s s' r : Reader⦄, s.runAround? marks rest = some s' →
    Reader.Covers outer slashed s r → (outer = [] ∨ ¬s'.IsMarking) →
    ∃ r', r.run? marks text = some r' ∧ Reader.Covers outer slashed s' r'

def Replaces (marks : Bool) (g : Parens.Group) (text : Text) : Prop :=
  ∀ ⦃outer : List Bracket⦄ ⦃slashed : Prop⦄ ⦃s r : Reader⦄ ⦃behind : Behind⦄,
    s.behind.afterReference? = some behind → s.mode = .plain →
    s.run? marks (Reference.opening ++ g.tail) = some { s with behind := .word [] } →
    Reader.Covers outer slashed s r →
    ∃ r', r.run? marks text = some r' ∧ Reader.Covers outer slashed { s with behind } r'

theorem replaces_self (marks : Bool) (g : Parens.Group) :
    Replaces marks g (Reference.opening ++ g.tail) := by
  intro outer slashed s r behind hb hm hk hc
  obtain ⟨r', hr', hc'⟩ := hc.run hk (.inr (Reader.not_isMarking_of_plain hm))
  exact ⟨r', hr', covers_kept hb hc'⟩

theorem Agrees.replaces {text : Text} (h : Agrees marks v text) (hv : isContained marks v = true)
    (g : Parens.Group) : Replaces marks g text := by
  intro outer slashed s r behind hb hm _ hc
  rw [isContained, Option.any_eq_true] at hv
  obtain ⟨s', hr, hs⟩ := hv
  rw [Bool.and_eq_true] at hs
  have hm' := (Reader.of_isOutside hs.1).2
  obtain ⟨r', hr', hc'⟩ := h hr (covers_start hb hm hc) (.inr (Reader.not_isMarking_of_plain hm'))
  exact ⟨r', hr', covers_behind hb hm hc hs.1 hs.2 hc'⟩

theorem agrees_splice {own others : Resolution}
    (h : Text.breakOn Reference.opening rest = some (before, after))
    (hown : Replaces marks (Parens.group after) own.text)
    (hothers : Agrees marks (Parens.group after).rest others.text) (closed : Bool) :
    Agrees marks rest (splice value before closed own others).text := by
  intro outer slashed s s' r hr hc hm
  obtain ⟨s₁, behind, hbefore, hb, hp, hkept, hrest⟩ := Reader.exists_of_runAround? h hr
  obtain ⟨r₁, hr₁, hc₁⟩ := hc.run hbefore (.inr (Reader.not_isMarking_of_plain hp))
  obtain ⟨r₂, hr₂, hc₂⟩ := hown hb hp hkept hc₁
  obtain ⟨r', hr', hc'⟩ := hothers hrest hc₂ hm
  refine ⟨r', ?_, hc'⟩
  rw [splice, List.append_assoc, Reader.run?_append_of_eq_some hr₁,
    Reader.run?_append_of_eq_some hr₂, hr']

theorem agrees_of_none (h : Text.breakOn Reference.opening rest = none) :
    Agrees marks rest rest := by
  intro outer slashed s s' r hr hc hm
  rw [Reader.runAround?_of_none h] at hr
  exact hc.run hr hm

theorem agrees_self (marks : Bool) (rest : Text) : Agrees marks rest rest := by
  match h : Text.breakOn Reference.opening rest with
  | none => exact agrees_of_none h
  | some (before, after) =>
    let own : Resolution := ⟨Reference.opening ++ (Parens.group after).tail, []⟩
    let others : Resolution := ⟨(Parens.group after).rest, []⟩
    have hs : Agrees marks rest (splice rest before true own others).text :=
      agrees_splice h (replaces_self marks _) (agrees_self marks _) true
    have he : before ++ own.text ++ others.text = rest := by
      rw [Text.breakOn_append h, List.append_assoc, List.append_assoc, List.append_assoc]
      congr 2
      exact Parens.tail_append_rest 0 after
    rwa [splice, he] at hs
termination_by rest.length
decreasing_by exact Nat.lt_of_le_of_lt (Parens.length_rest_le after) (length_after_lt ‹_›)

/-- A value is read around its references as its resolved text is, if all texts in the place of
references are contained. -/
theorem Derives.agrees {res : Resolution} (h : Derives b chain value rest res)
    (hi : ∀ v ∈ ingredients b chain rest, isContained marks v = true) :
    Agrees marks rest res.text := by
  have hrest {chain : List Text} {rest before after : Text}
      (h : Text.breakOn Reference.opening rest = some (before, after))
      (hi : ∀ v ∈ ingredients b chain rest, isContained marks v = true) :
      ∀ v ∈ ingredients b chain (Parens.group after).rest, isContained marks v = true :=
    fun v hv => hi v (subset_ingredients h hv)
  induction h with
  | plain h => exact agrees_of_none h
  | @kept _ _ _ _ _ w _ h _ _ ih =>
    let own (g : Parens.Group) : Resolution := ⟨Reference.opening ++ g.tail, [w]⟩
    have hown (g : Parens.Group) : Replaces marks g (own g).text := replaces_self marks g
    exact agrees_splice h (hown _) (ih (hrest h hi)) _
  | defined h hb hn hv _ _ ihv ih =>
    have hs := subset_of_defined h hb hn hv
    have hv := ihv fun v hv => hi v (hs (List.mem_cons_of_mem _ hv))
    exact agrees_splice h (hv.replaces (hi _ (hs List.mem_cons_self)) _) (ih (hrest h hi)) _
  | fallback h hb hn hv hf _ _ ihf ih =>
    have hs := subset_of_fallback h hb hn hv hf
    have hf := ihf fun v hv => hi v (hs (List.mem_cons_of_mem _ hv))
    exact agrees_splice h (hf.replaces (hi _ (hs List.mem_cons_self)) _) (ih (hrest h hi)) _

theorem Agrees.exists_run? {s' : Reader} {text : Text} (h : Agrees marks v text)
    (hr : Reader.initial.runAround? marks v = some s') :
    ∃ r, Reader.initial.run? marks text = some r ∧ r.brackets = s'.brackets ∧ r.mode = s'.mode := by
  have hc : Reader.Covers [] False Reader.initial Reader.initial := ⟨rfl, rfl, fun _ => .word []⟩
  obtain ⟨r, hr, hs⟩ := h hr hc (.inl rfl)
  exact ⟨r, hr, by rw [hs.brackets, List.append_nil], hs.mode⟩

end Resolution

end CustomProperties
