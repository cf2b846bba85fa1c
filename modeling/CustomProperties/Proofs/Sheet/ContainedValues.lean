import CustomProperties.Proofs.Sheet.TidyBodies
import CustomProperties.Proofs.Syntax.Marks

/-! # Contained values

A contained text is read as the value of a declaration, whatever ends the declaration. The value
has a mark of importance exactly if the text ends in one, also if comments stand behind it.
-/

namespace CustomProperties

open Syntax
open Syntax.Node (Parses Stands)

namespace Sheet

variable {marks : Bool} {closer : Option Bracket} {t w : Text} {r : Reader}

theorem shuts_of_ended (h : Ended w) : Shuts w := by
  have hs : ∀ c ∈ stops, isSpace c = false →
      isJoining c = false ∧ c ∉ ['\\', '(', '*'] ∧ c ≠ '!' := by decide
  cases w with
  | nil => exact ⟨nofun, nofun⟩
  | cons c w =>
    obtain ⟨hj, hn, hb⟩ := hs c (h.stopped c rfl) h.firm
    refine ⟨fun d hd => ?_, fun hd => absurd (Option.some.inj hd) hb⟩
    obtain rfl := Option.some.inj hd
    exact ⟨hj, h.firm, hn⟩

theorem shuts_mark (w : Text) : Shuts ("!important" ++ w) := by
  have ht : ("!important" ++ w).tail.head? = some 'i' := rfl
  refine ⟨fun c hc => ?_, fun _ => by rw [ht]; decide⟩
  obtain rfl := Option.some.inj hc
  decide

/-- What a contained text is parsed as: nodes that are no marks, and perhaps a mark behind them. -/
inductive Marked (marks : Bool) (m : Reader.Mode) : List Node → Prop

  | plain {ms : List Node} : m = .plain → (∀ n ∈ ms, Stands marks n) → Marked marks m ms

  | mark {ms : List Node} {bang name : Node} : m = .mark [] → (∀ n ∈ ms, Stands marks n) →
      IsMark bang name → Marked marks m (ms ++ [bang, name])

theorem exists_marked (h : Reader.initial.run? marks t = some r) (hf : r.isFinal = true)
    (hw : Ended w) : ∃ ms, Parses closer (t ++ w) ms w ∧ Marked marks r.mode ms := by
  have hrest (v : Text) : Reader.Rests Reader.initial v := ⟨rfl, trivial, nofun⟩
  obtain ⟨hb, hm | hm⟩ := Reader.of_isFinal hf
  · have hc := Reader.continues (shuts_of_ended hw) hm hb (hrest t) h
    obtain ⟨ms, hp, hs⟩ := hc closer
    exact ⟨ms, hp, .plain hm hs⟩
  · have hi : ¬Reader.initial.IsMarking := Reader.not_isMarking_of_plain rfl
    obtain ⟨v, q, rfl, hv, hqm, hqb⟩ := Reader.exists_of_mark h hi hm
    have hc := Reader.continues (shuts_mark w) hqm hqb (hrest v) hv
    obtain ⟨ms, hp, hs⟩ := hc closer
    obtain ⟨bang, name, hpm, hmark⟩ := exists_mark closer hw
    refine ⟨ms ++ [bang, name], ?_, .mark hm hs hmark⟩
    rw [List.append_assoc]
    exact hp.append hpm

theorem Marked.isPlain {m : Reader.Mode} {ms : List Node} (h : Marked marks m ms) :
    ∀ n ∈ ms, n.isPlain = true := by
  cases h with
  | plain _ hs => exact fun n hn => (hs n hn).plain
  | mark _ hs hmark =>
    exact List.forall_mem_append.mpr ⟨fun n hn => (hs n hn).plain, hmark.isPlain⟩

theorem spells_of_run (h : Reader.initial.run? marks t = some r) (hf : r.isFinal = true) :
    Spells closer t (SpellsValue False t) := by
  refine ⟨Reader.isStandard_of_run? h, fun w hw => ?_⟩
  obtain ⟨ms, hp, hm⟩ := exists_marked h hf hw
  exact ⟨ms, hp, .inl hm.isPlain, Item.isSome_readValue?_of_plain hm.isPlain, nofun⟩

theorem importantMark_isSuffix_iff {vs cs value : List Node} {important : Bool}
    (h : Reader.initial.run? true t = some r) (hf : r.isFinal = true) (hw : Ended w)
    (hp : Parses closer (t ++ w) vs w) (hc : ∀ c ∈ cs, c.isComment = true)
    (hv : Item.readValue? (vs ++ cs) = some (value, important)) :
    importantMark <:+ valueText value important ↔ r.mode = .mark [] := by
  obtain ⟨ms, hms, hm⟩ := exists_marked h hf hw
  obtain rfl := hp.unique hms
  have hfill : ∀ c ∈ cs, c.isFiller = true := fun c hm => Node.isFiller_of_isComment (hc c hm)
  cases hm with
  | plain hm hs =>
    have hun : ∀ n ∈ vs ++ cs, n.isLiteral ['!'] = false := by
      refine List.forall_mem_append.mpr ⟨fun n hn => (hs n hn).unmarked rfl, fun c hm => ?_⟩
      have hcom := hc c hm
      unfold Node.isComment at hcom
      split at hcom
      next => rfl
      next => contradiction
    have hplain : ∀ n ∈ vs ++ cs, n.isPlain = true :=
      List.forall_mem_append.mpr ⟨fun n hn => (hs n hn).plain,
        fun c hm => Node.isPlain_of_isFiller (hfill c hm)⟩
    have hr := Item.readValue?_of_phase (Item.misplacedBlock_of_plain hplain)
      (by rw [Item.phase_of_unmarked hun]; exact nofun)
    rw [hr] at hv
    cases hv
    have hwritten : ∀ n ∈ vs ++ cs, Unmarked n.write :=
      List.forall_mem_append.mpr ⟨hp.unmarked hs, fun c hm => Node.unmarked_comment (hc c hm)⟩
    refine ⟨fun hs => absurd hs (Node.unmarked_writeFrom hwritten none).not_isSuffix, fun hmark => ?_⟩
    rw [hm] at hmark
    contradiction
  | @mark ms bang name hm hs hmark =>
    have hr := hmark.readValue? (Item.phase_of_unmarked fun n hn => (hs n hn).unmarked rfl)
      (Item.misplacedBlock_of_plain fun n hn => (hs n hn).plain) hfill
    rw [List.append_assoc] at hv
    obtain ⟨rfl, rfl⟩ := Prod.mk.inj (Option.some.inj (hr.symm.trans hv))
    exact ⟨fun _ => hm, fun _ => List.suffix_append _ _⟩

end Sheet

end CustomProperties
