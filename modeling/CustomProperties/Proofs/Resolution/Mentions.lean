import CustomProperties.Proofs.Parens.Balance
import CustomProperties.Proofs.Resolution.Delimited
import CustomProperties.Proofs.Split.Parts
import CustomProperties.Proofs.Text.Strip
import CustomProperties.Proofs.Variables.Names

/-! # Mentioned names

A value mentions the name of every reference that starts in it, also of those in fallbacks and in
other names. Whatever a resolution looks up is mentioned in the value itself or in the value of a
name, since what it cuts out of a text mentions nothing that the text does not mention.
-/

namespace CustomProperties

namespace Split

theorem exists_of_splitFrom {separator t part : Text} {p : Position} {limit : Option Nat}
    {parts : List Text} (h : splitFrom separator p limit t = part :: parts) :
    ∃ rest, t = part ++ rest ∧ ∀ c ∈ rest.head?, [c] = separator := by
  induction t generalizing p limit part with
  | nil =>
    obtain ⟨rfl, -⟩ := List.cons.inj h
    exact ⟨[], rfl, nofun⟩
  | cons c t ih =>
    rw [splitFrom] at h
    split at h
    next hc =>
      obtain ⟨rfl, -⟩ := List.cons.inj h
      simp only [cutsAt, Bool.and_eq_true, beq_iff_eq] at hc
      exact ⟨c :: t, rfl, by simpa using hc.1.2⟩
    next =>
      obtain ⟨first, others, hs⟩ := List.exists_cons_of_ne_nil
        (splitFrom_ne_nil separator (p.step c) limit t)
      rw [hs, List.modifyHead_cons, List.cons.injEq] at h
      obtain ⟨rfl, rfl⟩ := h
      obtain ⟨rest, rfl, hr⟩ := ih hs
      exact ⟨rest, rfl, hr⟩

end Split

namespace Reference

/-- Some reference that starts in a value has the name. -/
def Mentions (value name : Text) : Prop :=
  ∃ before after r, value = before ++ (opening ++ after) ∧
    ofBody? (Parens.group after).body = some r ∧ r.name = name

def mentioned : Text → List Text
  | [] => []
  | c :: t =>
    ((Text.dropPrefix? opening (c :: t)).bind fun after =>
      (ofBody? (Parens.group after).body).map name).toList ++ mentioned t

variable {t u x after name f : Text} {c : Char} {r : Reference}

theorem mentions_cons : Mentions (c :: t) name ↔
    (∃ after r, c :: t = opening ++ after ∧ ofBody? (Parens.group after).body = some r ∧
      r.name = name) ∨ Mentions t name := by
  constructor
  · rintro ⟨before, after, r, he, hr, hn⟩
    cases before with
    | nil => exact .inl ⟨after, r, he, hr, hn⟩
    | cons d before => exact .inr ⟨before, after, r, (List.cons.inj he).2, hr, hn⟩
  · rintro (⟨after, r, he, hr, hn⟩ | ⟨before, after, r, he, hr, hn⟩)
    · exact ⟨[], after, r, he, hr, hn⟩
    · exact ⟨c :: before, after, r, congrArg (c :: ·) he, hr, hn⟩

theorem mem_mentioned : name ∈ mentioned t ↔ Mentions t name := by
  induction t with
  | nil => simp [mentioned, Mentions, opening]
  | cons c t ih =>
    rw [mentioned, List.mem_append, ih, mentions_cons]
    refine or_congr_left ?_
    simp only [Option.mem_toList, Option.bind_eq_some_iff, Option.map_eq_some_iff,
      Text.dropPrefix?_eq_some]
    constructor
    · rintro ⟨after, he, r, hr, hn⟩
      exact ⟨after, r, he, hr, hn⟩
    · rintro ⟨after, r, he, hr, hn⟩
      exact ⟨after, he, r, hr, hn⟩

instance (value name : Text) : Decidable (Mentions value name) := decidable_of_iff _ mem_mentioned

theorem mentions_opening (hr : ofBody? (Parens.group after).body = some r) :
    Mentions (opening ++ after) name ↔ r.name = name ∨ Mentions after name := by
  have hskip {c : Char} {t : Text} (hc : c ≠ 'v') : Mentions (c :: t) name ↔ Mentions t name := by
    rw [mentions_cons, or_iff_right]
    rintro ⟨_, _, he, -⟩
    exact hc (List.cons.inj he).1
  have ho : opening ++ after = 'v' :: 'a' :: 'r' :: '(' :: after := rfl
  rw [ho, mentions_cons, hskip (by decide), hskip (by decide), hskip (by decide), ← ho]
  refine or_congr_left ⟨?_, fun hn => ⟨after, r, rfl, hr, hn⟩⟩
  rintro ⟨_, r', he, hr', hn⟩
  obtain rfl := List.append_cancel_left he
  obtain rfl := Option.some.inj (hr.symm.trans hr')
  exact hn

theorem Mentions.of_suffix (h : Mentions u name) (hs : u <:+ t) : Mentions t name := by
  obtain ⟨before, after, r, rfl, hr, hn⟩ := h
  obtain ⟨x, rfl⟩ := hs
  exact ⟨x ++ before, after, r, by simp, hr, hn⟩

theorem Mentions.of_breakOn {before : Text} (hb : Text.breakOn opening t = some (before, after))
    (hr : ofBody? (Parens.group after).body = some r) : Mentions t r.name :=
  ⟨before, after, r, by simpa using Text.breakOn_append hb, hr, rfl⟩

/-- The groups in a final part of the body of a closed group are the same in the whole text. -/
theorem Mentions.of_body (h : Mentions f name) (hf : f <:+ (Parens.group after).body) :
    Mentions after name := by
  cases hc : (Parens.group after).closed with
  | false =>
    have hb : (Parens.group after).body = after := Parens.body_of_not_closed hc
    exact h.of_suffix (hb ▸ hf)
  | true =>
    obtain ⟨before, inner, r, rfl, hr, hn⟩ := h
    obtain ⟨x, hx⟩ := hf
    have ha : after = (Parens.group after).body ++ ')' :: (Parens.group after).rest :=
      Parens.eq_body_append hc
    have hb : Parens.balanced 0 (Parens.group after).body = true := Parens.balanced_of_close hc
    have hi : Parens.balanced 0 (x ++ before ++ ['v', 'a', 'r'] ++ '(' :: inner) = true := by
      simpa [← hx, opening] using hb
    have hg : (Parens.group (inner ++ ')' :: (Parens.group after).rest)).body =
        (Parens.group inner).body := by
      rw [Parens.group, Parens.close_append (Parens.closed_of_balanced hi)]
      rfl
    refine ⟨x ++ before, inner ++ ')' :: (Parens.group after).rest, r, ?_, by rwa [hg], hn⟩
    rw [← hx] at ha
    simpa using ha

theorem Mentions.of_fallback {before : Text} (h : Mentions f name)
    (hb : Text.breakOn opening t = some (before, after))
    (hr : ofBody? (Parens.group after).body = some r) (hf : r.fallback = some f) :
    Mentions t name :=
  (h.of_body (fallback_suffix hr hf)).of_suffix ⟨_, (Text.breakOn_append hb).symm⟩

theorem Mentions.of_rest {before : Text} (h : Mentions (Parens.group after).rest name)
    (hb : Text.breakOn opening t = some (before, after)) : Mentions t name :=
  (h.of_suffix ⟨_, Parens.tail_append_rest 0 _⟩).of_suffix ⟨_, (Text.breakOn_append hb).symm⟩

end Reference

namespace Resolution

open Reference (Mentions)

theorem Evaluates.mentions {b : Bindings} {chain : List Text} {rest : Text} {r : Reference}
    (h : Evaluates b chain rest r) :
    Mentions rest r.name ∨ ∃ name v, b.find? name = some v ∧ Mentions v r.name := by
  induction h with
  | here hb hr => exact .inl (.of_breakOn hb hr)
  | value _ _ _ hv _ ih =>
    rcases ih with h | h
    · exact .inr ⟨_, _, hv, h⟩
    · exact .inr h
  | fallback hb hr _ _ hf _ ih => exact ih.imp_left fun h => h.of_fallback hb hr hf
  | later hb _ ih => exact ih.imp_left fun h => h.of_rest hb

end Resolution

end CustomProperties
