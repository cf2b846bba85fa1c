import CustomProperties.Resolution

/-! # Derivations of a resolution

A value is resolved reference by reference. A derivation says what becomes of the next one, so an
induction on derivations goes through the values of names, through fallbacks and through the rest
of the text alike.
-/

namespace CustomProperties.Resolution

/-- Why a reference with a given body keeps its text. -/
inductive Stuck (b : Bindings) (chain : List Text) (body : Text) : Warning → Prop

  | blank : Reference.ofBody? body = none → Stuck b chain body .blank

  | circular {r : Reference} : Reference.ofBody? body = some r → r.name ∈ chain →
      Stuck b chain body (.circular r.name)

  | undefined {r : Reference} : Reference.ofBody? body = some r → r.name ∉ chain →
      b.find? r.name = none → r.fallback = none → Stuck b chain body (.undefined r.name)

/-- What stands in the place of a reference, between the text before it and the resolved rest. -/
def splice (value before : Text) (closed : Bool) (own others : Resolution) : Resolution :=
  ⟨before ++ own.text ++ others.text,
    (if closed then [] else [.unclosed value]) ++ own.warnings ++ others.warnings⟩

inductive Derives (b : Bindings) : List Text → Text → Text → Resolution → Prop

  | plain {chain : List Text} {value rest : Text} :
      Text.breakOn Reference.opening rest = none → Derives b chain value rest ⟨rest, []⟩

  | kept {chain : List Text} {value rest before after : Text} {w : Warning} {others : Resolution} :
      Text.breakOn Reference.opening rest = some (before, after) →
      Stuck b chain (Parens.group after).body w →
      Derives b chain value (Parens.group after).rest others →
      Derives b chain value rest (splice value before (Parens.group after).closed
        ⟨Reference.opening ++ (Parens.group after).tail, [w]⟩ others)

  | defined {chain : List Text} {value rest before after v : Text} {r : Reference}
      {own others : Resolution} :
      Text.breakOn Reference.opening rest = some (before, after) →
      Reference.ofBody? (Parens.group after).body = some r → r.name ∉ chain →
      b.find? r.name = some v → Derives b (r.name :: chain) v v own →
      Derives b chain value (Parens.group after).rest others →
      Derives b chain value rest (splice value before (Parens.group after).closed own others)

  | fallback {chain : List Text} {value rest before after f : Text} {r : Reference}
      {own others : Resolution} :
      Text.breakOn Reference.opening rest = some (before, after) →
      Reference.ofBody? (Parens.group after).body = some r → r.name ∉ chain →
      b.find? r.name = none → r.fallback = some f → Derives b chain f f own →
      Derives b chain value (Parens.group after).rest others →
      Derives b chain value rest (splice value before (Parens.group after).closed own others)

variable {b : Bindings} {chain : List Text} {value rest : Text} {res : Resolution}

theorem resolveFrom_of_none (h : Text.breakOn Reference.opening rest = none) :
    resolveFrom b chain value rest = ⟨rest, []⟩ := by
  rw [resolveFrom]
  split <;> simp_all

def substitute (b : Bindings) (chain : List Text) (g : Parens.Group) : Resolution :=
  match Reference.ofBody? g.body with
  | none => ⟨Reference.opening ++ g.tail, [.blank]⟩
  | some r =>
    if r.name ∈ chain then ⟨Reference.opening ++ g.tail, [.circular r.name]⟩
    else
      match b.find? r.name, r.fallback with
      | some v, _ => resolveFrom b (r.name :: chain) v v
      | none, some f => resolveFrom b chain f f
      | none, none => ⟨Reference.opening ++ g.tail, [.undefined r.name]⟩

theorem resolveFrom_of_some {before after : Text}
    (h : Text.breakOn Reference.opening rest = some (before, after)) :
    resolveFrom b chain value rest =
      splice value before (Parens.group after).closed (substitute b chain (Parens.group after))
        (resolveFrom b chain value (Parens.group after).rest) := by
  rw [resolveFrom]
  split
  next hb => rw [h] at hb; contradiction
  next hb =>
    rw [h] at hb
    cases hb
    unfold substitute
    cases hr : Reference.ofBody? (Parens.group after).body with
    | none => dsimp only; split <;> simp_all [splice]
    | some r =>
      dsimp only
      split
      next hn => rw [hr] at hn; contradiction
      next hs =>
        rw [hr] at hs
        cases hs
        split
        next => rfl
        next =>
          cases b.find? r.name with
          | some v => rfl
          | none => cases r.fallback <;> rfl

theorem derives_resolveFrom (b : Bindings) (chain : List Text) (value rest : Text) :
    Derives b chain value rest (resolveFrom b chain value rest) := by
  induction chain, value, rest using resolveFrom.induct b with
  | case1 chain value rest h =>
    rw [resolveFrom_of_none h]
    exact .plain h
  | case2 chain value rest before after h g ihv ihf ihr =>
    rw [resolveFrom_of_some h]
    unfold substitute
    split
    next hn => exact .kept h (.blank hn) ihr
    next r hr =>
      split
      next hc => exact .kept h (.circular hr hc) ihr
      next hc =>
        split
        next v hv => exact .defined h hr hc hv (ihv r hc v hv) ihr
        next f hv hf => exact .fallback h hr hc hv hf (ihf r hr f hf) ihr
        next hv hf => exact .kept h (.undefined hr hc hv hf) ihr

theorem substitute_of_stuck {g : Parens.Group} {w : Warning} (h : Stuck b chain g.body w) :
    substitute b chain g = ⟨Reference.opening ++ g.tail, [w]⟩ := by
  cases h with
  | blank hn => simp [substitute, hn]
  | circular hr hc => simp [substitute, hr, hc]
  | undefined hr hc hv hf => simp [substitute, hr, hc, hv, hf]

theorem Derives.eq (h : Derives b chain value rest res) :
    resolveFrom b chain value rest = res := by
  induction h with
  | plain h => exact resolveFrom_of_none h
  | kept h hs _ ih => rw [resolveFrom_of_some h, substitute_of_stuck hs, ih]
  | defined h hr hc hv _ _ ihv ih => simp [resolveFrom_of_some h, substitute, hr, hc, hv, ihv, ih]
  | fallback h hr hc hv hf _ _ ihf ih =>
    simp [resolveFrom_of_some h, substitute, hr, hc, hv, hf, ihf, ih]

theorem derives_iff : Derives b chain value rest res ↔ resolveFrom b chain value rest = res :=
  ⟨Derives.eq, fun h => h ▸ derives_resolveFrom b chain value rest⟩

theorem mem_warnings_splice {before : Text} {closed : Bool} {own others : Resolution}
    {w : Warning} :
    w ∈ (splice value before closed own others).warnings ↔
      closed = false ∧ w = .unclosed value ∨ w ∈ own.warnings ∨ w ∈ others.warnings := by
  cases closed <;> simp [splice]

theorem Derives.find?_eq_none {name : Text} (h : Derives b chain value rest res)
    (hw : .undefined name ∈ res.warnings) : b.find? name = none := by
  induction h with
  | plain => contradiction
  | kept _ hs _ ih =>
    rcases mem_warnings_splice.mp hw with ⟨-, hw⟩ | hw | hw
    · contradiction
    · cases hs with
      | undefined _ _ hv _ =>
        rw [List.mem_singleton, Warning.undefined.injEq] at hw
        exact hw ▸ hv
      | _ => simp at hw
    · exact ih hw
  | defined _ _ _ _ _ _ ihv ih =>
    rcases mem_warnings_splice.mp hw with ⟨-, hw⟩ | hw | hw
    · contradiction
    · exact ihv hw
    · exact ih hw
  | fallback _ _ _ _ _ _ _ ihf ih =>
    rcases mem_warnings_splice.mp hw with ⟨-, hw⟩ | hw | hw
    · contradiction
    · exact ihf hw
    · exact ih hw

end CustomProperties.Resolution
