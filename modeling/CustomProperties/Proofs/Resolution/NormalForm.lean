import CustomProperties.Proofs.Resolution.Delimited
import CustomProperties.Proofs.Resolution.Derivation
import CustomProperties.Proofs.Split.Parts

/-! # Normal forms of values

A resolved value is woven from texts without references and from references that are kept, each of
which has caused one warning. If the values of all names are delimited, no seam forms a further
reference. So a value without warnings has no reference left, and a kept reference is met again
and kept again when the value is resolved once more.
-/

namespace CustomProperties.Resolution

open Reference (opening occursIn Apart)

/-- Texts without references around kept ones, with the warnings that these have caused. -/
inductive Woven (stuck : Text → Warning → Prop) : Text → List Warning → Prop

  | plain {t : Text} : occursIn t = false → Woven stuck t []

  | kept {before body rest : Text} {w : Warning} {ws : List Warning} :
      occursIn before = false → Parens.balanced 0 body = true → stuck body w →
      Woven stuck rest ws → Woven stuck (before ++ (opening ++ (body ++ ')' :: rest))) (w :: ws)

namespace Woven

variable {stuck stuck' : Text → Warning → Prop} {t u : Text} {ws vs : List Warning}

theorem warnings_eq_nil_iff (h : Woven stuck t ws) : ws = [] ↔ occursIn t = false := by
  cases h with
  | plain ht => simp [ht]
  | @kept before body rest w ws =>
    have hi : occursIn (before ++ (opening ++ (body ++ ')' :: rest))) = true :=
      Text.occurs_iff.mpr (List.infix_append' ..)
    simp [hi]

theorem mono (h : Woven stuck t ws) (hs : ∀ body, ∀ w ∈ ws, stuck body w → stuck' body w) :
    Woven stuck' t ws := by
  induction h with
  | plain ht => exact .plain ht
  | kept hb hp hw _ ih =>
    exact .kept hb hp (hs _ _ List.mem_cons_self hw)
      (ih fun body w hm => hs body w (List.mem_cons_of_mem _ hm))

theorem append_plain (ht : occursIn t = false) (hu : Woven stuck u vs) (h : Apart t u) :
    Woven stuck (t ++ u) vs := by
  cases hu with
  | plain hu => exact .plain (Reference.occursIn_append ht hu h)
  | @kept before body rest w ws hb hp hw hr =>
    rw [← List.append_assoc]
    refine .kept (Reference.occursIn_append ht hb ?_) hp hw hr
    cases before with
    | nil => exact .inr (by simp)
    | cons => simpa [Apart] using h

theorem append (ht : Woven stuck t ws) (hu : Woven stuck u vs) (h : Apart t u) :
    Woven stuck (t ++ u) (ws ++ vs) := by
  induction ht with
  | plain ht => exact append_plain ht hu h
  | @kept before body rest w ws hb hp hw _ ih =>
    have hr : Apart rest u := by
      refine h.imp (fun h c hc => h c ?_) id
      rw [List.getLast?_append]
      simp_all [List.getLast?_append, List.getLast?_cons]
    simpa using Woven.kept hb hp hw (ih hr)

end Woven

variable {b : Bindings} {chain : List Text} {value rest : Text} {res : Resolution}

theorem derives_of_woven {t : Text} {ws : List Warning} (h : Woven (Stuck b []) t ws) (value : Text) :
    Derives b [] value t ⟨t, ws⟩ := by
  induction h with
  | plain ht => exact .plain (Text.breakOn_eq_none_iff.mpr ht)
  | @kept before body rest w ws hb hp hw _ ih =>
    have hg := Parens.group_of_balanced hp rest
    have hc : Text.breakOn opening (before ++ (opening ++ (body ++ ')' :: rest))) =
        some (before, body ++ ')' :: rest) :=
      Text.breakOn_of_not_occurs (by decide) _ hb
    have hd := Derives.kept hc (by rwa [hg]) (by rwa [hg])
    simpa [hg, splice, Parens.Group.tail] using hd

/-- A cut of a delimited text at its first reference. -/
structure Cut (rest before after : Text) : Prop where
  detached : Reference.Detached before.getLast? after
  plain : occursIn before = false
  behind : Delimited (Parens.group after).rest
  fallback : ∀ {r : Reference} {f : Text}, Reference.ofBody? (Parens.group after).body = some r →
    r.fallback = some f → Delimited f

theorem cut_of_delimited {before after : Text} (hd : Delimited rest)
    (h : Text.breakOn opening rest = some (before, after)) : Cut rest before after := by
  have hr : rest = before ++ (opening ++ after) := by simpa using Text.breakOn_append h
  have hdet := hd before after hr
  have ha : after = (Parens.group after).body ++ ')' :: (Parens.group after).rest :=
    Parens.eq_body_append hdet.closed
  have hafter : Delimited after := hd.of_suffix ⟨before ++ opening, by simp [hr]⟩
  refine ⟨hdet, Text.not_occurs_of_breakOn h, ?_, fun hf hs => ?_⟩
  · exact hafter.of_suffix ⟨(Parens.group after).body ++ [')'], by simpa using ha.symm⟩
  · rw [ha] at hafter
    exact hafter.of_body (Parens.balanced_of_close hdet.closed) (Reference.fallback_suffix hf hs)

theorem head_splice {before after : Text} {closed : Bool} {own others : Resolution}
    (h : Text.breakOn opening rest = some (before, after)) (hr : rest.head? ≠ some 'v') :
    (splice value before closed own others).text.head? = rest.head? := by
  have he := Text.breakOn_append h
  cases before with
  | nil => simp [he, opening] at hr
  | cons c before => simp [he, splice]

theorem Derives.head_text (h : Derives b chain value rest res) (hr : rest.head? ≠ some 'v') :
    res.text.head? = rest.head? := by
  cases h with
  | plain => rfl
  | kept hc => exact head_splice hc hr
  | defined hc => exact head_splice hc hr
  | fallback hc => exact head_splice hc hr

section Weave

variable {stuck : Text → Warning → Prop} {before after : Text} {own others : Resolution}

theorem Cut.woven_kept {w : Warning} (hc : Cut rest before after)
    (hw : stuck (Parens.group after).body w) (ho : Woven stuck others.text others.warnings) :
    Woven stuck (splice value before (Parens.group after).closed
        ⟨opening ++ (Parens.group after).tail, [w]⟩ others).text
      (splice value before (Parens.group after).closed
        ⟨opening ++ (Parens.group after).tail, [w]⟩ others).warnings := by
  have hp : Parens.balanced 0 (Parens.group after).body = true :=
    Parens.balanced_of_close hc.detached.closed
  simpa [splice, Parens.Group.tail, hc.detached.closed] using Woven.kept hc.plain hp hw ho

/-- The text before a reference ends, and the text after it starts, with a character that no
opening of a reference can reach over. -/
theorem Cut.woven_splice (hc : Cut rest before after) (hw : Woven stuck own.text own.warnings)
    (hd : Derives b chain value (Parens.group after).rest others)
    (ho : Woven stuck others.text others.warnings) :
    Woven stuck (splice value before (Parens.group after).closed own others).text
      (splice value before (Parens.group after).closed own others).warnings := by
  have hleft : Woven stuck (before ++ own.text) own.warnings :=
    hw.append_plain hc.plain (.inl hc.detached.before)
  have hv : (Parens.group after).rest.head? ≠ some 'v' := fun hv =>
    absurd (hc.detached.behind 'v' hv).1 (by decide)
  have hright : Apart (before ++ own.text) others.text :=
    .inr fun c hm => hc.detached.behind c (hd.head_text hv ▸ hm)
  simpa [splice, hc.detached.closed] using hleft.append ho hright

end Weave

theorem Derives.woven (hb : ∀ {name v : Text}, b.find? name = some v → Delimited v)
    (h : Derives b chain value rest res) (hd : Delimited rest) :
    Woven (fun body w => ∃ chain, Stuck b chain body w) res.text res.warnings := by
  induction h with
  | plain h => exact .plain (Text.breakOn_eq_none_iff.mp h)
  | kept hc hs _ ih =>
    have hcut := cut_of_delimited hd hc
    exact hcut.woven_kept ⟨_, hs⟩ (ih hcut.behind)
  | defined hc _ _ hv _ hr ihv ih =>
    have hcut := cut_of_delimited hd hc
    exact hcut.woven_splice (ihv (hb hv)) hr (ih hcut.behind)
  | fallback hc hn _ _ hf _ hr ihf ih =>
    have hcut := cut_of_delimited hd hc
    exact hcut.woven_splice (ihf (hcut.fallback hn hf)) hr (ih hcut.behind)

theorem Stuck.of_not_circular {body : Text} {w : Warning} (h : Stuck b chain body w)
    (hw : ∀ name, w ≠ .circular name) : Stuck b [] body w := by
  cases h with
  | blank hn => exact .blank hn
  | circular => exact absurd rfl (hw _)
  | undefined hr _ hv hf => exact .undefined hr List.not_mem_nil hv hf

/-- Under delimited values, a delimited value resolves without warnings exactly if no reference is
left in the result, and without circular references the result resolves to itself. -/
theorem resolve_reaches_normal_form {b : Bindings} {v : Text}
    (hb : ∀ e ∈ b.entries, Delimited e.2) (hv : Delimited v) :
    ((resolve b v).warnings = [] ↔ occursIn (resolve b v).text = false) ∧
      ((∀ name, .circular name ∉ (resolve b v).warnings) →
        resolve b (resolve b v).text = resolve b v) := by
  have hw := (derives_resolveFrom b [] v v).woven
    (fun h => hb _ (Bindings.mem_entries_of_find? h)) hv
  refine ⟨hw.warnings_eq_nil_iff, fun hn => ?_⟩
  have hk : Woven (Stuck b []) (resolve b v).text (resolve b v).warnings :=
    hw.mono fun body w hm ⟨chain, hs⟩ => hs.of_not_circular fun name he => hn name (he ▸ hm)
  exact (derives_of_woven hk _).eq

/-- A chain, a fallback with a reference in it, and an undefined name that stays. -/
theorem resolve_reaches_normal_form_of_undefined :
    let b := Bindings.ofList [("--a", "calc(1px + var(--b))"), ("--b", "2px")]
    let v : Text := "var(--a) var(--u, (var(--b))) var(--x)"
    ((∀ e ∈ b.entries, Delimited e.2) ∧ Delimited v) ∧
      resolve b v = ⟨"calc(1px + 2px) (2px) var(--x)", [.undefined "--x"]⟩ ∧
      ((resolve b v).warnings = [] ↔ occursIn (resolve b v).text = false) ∧
      resolve b (resolve b v).text = resolve b v := by
  intro b v
  have hb : ∀ e ∈ b.entries, Delimited e.2 := by decide +kernel
  have hv : Delimited v := by decide +kernel
  have hr : resolve b v = ⟨"calc(1px + 2px) (2px) var(--x)", [.undefined "--x"]⟩ := by
    decide +kernel
  have hn := resolve_reaches_normal_form hb hv
  exact ⟨⟨hb, hv⟩, hr, hn.1, hn.2 (by simp [hr])⟩

end CustomProperties.Resolution
