import CustomProperties.Proofs.Resolution.Derivation
import CustomProperties.Proofs.Syntax.Step
import CustomProperties.Proofs.Transform.Pruning

/-! # Names of definitions and references

A definition is collected under the name that its identifier denotes, while a reference is looked
up under the text that spells it. The two agree exactly if no escape is left in the spelling, and
then a reference finds the last definition of its name.
-/

namespace CustomProperties

open Syntax

namespace Resolution

/-- The references that are evaluated when `rest` is resolved inside the expansion of the names on
`chain`. -/
inductive Evaluates (b : Bindings) : List Text → Text → Reference → Prop

  | here {chain : List Text} {rest before after : Text} {r : Reference} :
      Text.breakOn Reference.opening rest = some (before, after) →
      Reference.ofBody? (Parens.group after).body = some r → Evaluates b chain rest r

  | value {chain : List Text} {rest before after v : Text} {r inner : Reference} :
      Text.breakOn Reference.opening rest = some (before, after) →
      Reference.ofBody? (Parens.group after).body = some r → r.name ∉ chain →
      b.find? r.name = some v → Evaluates b (r.name :: chain) v inner → Evaluates b chain rest inner

  | fallback {chain : List Text} {rest before after f : Text} {r inner : Reference} :
      Text.breakOn Reference.opening rest = some (before, after) →
      Reference.ofBody? (Parens.group after).body = some r → r.name ∉ chain →
      b.find? r.name = none → r.fallback = some f → Evaluates b chain f inner →
      Evaluates b chain rest inner

  | later {chain : List Text} {rest before after : Text} {r : Reference} :
      Text.breakOn Reference.opening rest = some (before, after) →
      Evaluates b chain (Parens.group after).rest r → Evaluates b chain rest r

theorem Derives.exists_evaluates {b : Bindings} {chain : List Text} {value rest name : Text}
    {res : Resolution} (h : Derives b chain value rest res) (hw : .undefined name ∈ res.warnings) :
    ∃ r, Evaluates b chain rest r ∧ r.name = name ∧ b.find? name = none := by
  induction h with
  | plain => contradiction
  | kept hb hs _ ih =>
    rcases mem_warnings_splice.mp hw with ⟨-, hw⟩ | hw | hw
    · contradiction
    · cases hs with
      | undefined hr _ hv _ =>
        obtain rfl := Warning.undefined.inj (List.mem_singleton.mp hw)
        exact ⟨_, .here hb hr, rfl, hv⟩
      | _ => simp at hw
    · obtain ⟨r, he, hn⟩ := ih hw
      exact ⟨r, .later hb he, hn⟩
  | defined hb hr hc hv _ _ ihv ih =>
    rcases mem_warnings_splice.mp hw with ⟨-, hw⟩ | hw | hw
    · contradiction
    · obtain ⟨r, he, hn⟩ := ihv hw
      exact ⟨r, .value hb hr hc hv he, hn⟩
    · obtain ⟨r, he, hn⟩ := ih hw
      exact ⟨r, .later hb he, hn⟩
  | fallback hb hr hc hv hf _ _ ihf ih =>
    rcases mem_warnings_splice.mp hw with ⟨-, hw⟩ | hw | hw
    · contradiction
    · obtain ⟨r, he, hn⟩ := ihf hw
      exact ⟨r, .fallback hb hr hc hv hf he, hn⟩
    · obtain ⟨r, he, hn⟩ := ih hw
      exact ⟨r, .later hb he, hn⟩

end Resolution

namespace Syntax

/-- A text that is one identifier, which denotes a name. -/
def Denotes (t name : Text) : Prop := Lexeme.readAll t = [⟨t, .token (.ident name)⟩]

instance (t name : Text) : Decidable (Denotes t name) := inferInstanceAs (Decidable (_ = _))

theorem length_readEscape_lt {t : Text} (h : t ≠ []) : (readEscape t).2.length < t.length := by
  obtain ⟨c, t, rfl⟩ := List.exists_cons_of_ne_nil h
  unfold readEscape
  cases ((c :: t).take 6).takeWhile isHexDigit with
  | nil => simp
  | cons d digits =>
    have hs := length_dropSpace ((c :: t).drop (d :: digits).length)
    simp only [List.length_drop, List.length_cons] at hs ⊢
    omega

/-- A name that is read in full reads as itself only if it has no escape. -/
theorem readName_eq_self_iff {t : Text} (h : (readName t).2 = []) :
    (readName t).1 = t ↔ '\\' ∉ t := by
  have hl (t : Text) : (readName t).1.length ≤ t.length := by
    fun_induction readName t with
    | case1 => simp
    | case2 c t _ name rest hr ih => simpa [hr] using ih
    | case3 c t _ _ name rest hr ih =>
      have := length_readEscape t
      simp only [hr] at ih
      simp only [List.length_cons]
      omega
    | case4 => simp
  constructor
  · intro he
    fun_induction readName t with
    | case1 => simp
    | case2 c t hc name rest hr ih =>
      rw [hr] at ih
      have hn : c ≠ '\\' := by rintro rfl; contradiction
      simp [hn.symm, ih h (List.cons.inj he).2]
    | case3 c t _ hc name rest hr ih =>
      obtain ⟨hd, rfl⟩ := List.cons.inj he
      have hle := hl (readEscape name).2
      rw [hr] at hle
      by_cases hn : name = []
      · rw [hn, hc.1] at hd
        contradiction
      · have := length_readEscape_lt hn
        simp only at hle
        omega
    | case4 => contradiction
  · intro hb
    have ha := readName_append hb
    rwa [h, List.append_nil] at ha

theorem Denotes.readName_eq {t name : Text} (h : Denotes t name) : readName t = (name, []) := by
  unfold Denotes at h
  cases t with
  | nil => simp at h
  | cons c t =>
    rw [Lexeme.readAll_cons, List.cons.injEq, Lexeme.mk.injEq] at h
    obtain ⟨⟨-, hm⟩, hr⟩ := h
    cases hn : (Lexeme.next c t).2 with
    | nil => exact (hm ▸ hn ▸ Lexeme.step_next c t).of_ident
    | cons d rest => rw [hn, Lexeme.readAll_cons] at hr; contradiction

theorem Denotes.eq_iff {t name : Text} (h : Denotes t name) : t = name ↔ '\\' ∉ t := by
  have hr := h.readName_eq
  rw [← readName_eq_self_iff (by rw [hr]), hr, eq_comm]

end Syntax

variable {css : Text} {o : Options} {s before after : Sheet} {rule : Rule}
  {ds ds' : List Declaration} {d : Declaration}

/-- A reference that is spelled without escapes finds the last definition of the name that it
denotes, and is never reported as undefined. -/
theorem reference_finds_definition (hread : Sheet.read css = .ok s)
    (ho : o.overrides.isEmpty = true) (hs : s = before ++ rule :: after)
    (hd : rule.definitions = ds ++ d :: ds') (hrule : ∀ d' ∈ ds', d'.property ≠ d.property)
    (hafter : ∀ r ∈ after, ∀ d' ∈ r.definitions, d'.property ≠ d.property) :
    (∀ site ∈ (s.transform o).sites, ∀ r,
      Resolution.Evaluates (s.transform o).bindings [] site.declaration.value r →
      Denotes r.name d.property → '\\' ∉ r.name →
      r.name = d.property ∧ (s.transform o).bindings.find? r.name = some d.value) ∧
    ∀ t, Denotes t d.property → '\\' ∉ t → .undefined t ∉ (transform o css).warnings := by
  have hall : s.definitions = (before.flatMap Rule.definitions ++ ds) ++ d ::
      (ds' ++ after.flatMap Rule.definitions) := by
    rw [hs, Sheet.definitions, List.flatMap_append, List.flatMap_cons, hd]
    simp only [List.append_assoc, List.cons_append]
  have hlast : ∀ d' ∈ ds' ++ after.flatMap Rule.definitions, d'.property ≠ d.property := by
    intro d' hm
    rcases List.mem_append.mp hm with hm | hm
    · exact hrule d' hm
    · obtain ⟨r, hr, hm⟩ := List.mem_flatMap.mp hm
      exact hafter r hr d' hm
  have hb : (s.transform o).bindings.find? d.property = some d.value := by
    rw [Sheet.bindings_transform, Sheet.bindings_pruned]
    exact Sheet.find?_bindings_of_last ho hall hlast
  have hfind : ∀ t, Denotes t d.property → '\\' ∉ t →
      t = d.property ∧ (s.transform o).bindings.find? t = some d.value := by
    intro t ht he
    obtain rfl := ht.eq_iff.mpr he
    exact ⟨rfl, hb⟩
  refine ⟨fun site _ r _ hr he => hfind r.name hr he, fun t ht he hw => ?_⟩
  rw [(transform_of_read o hread).2] at hw
  obtain ⟨site, hm, hw⟩ := List.mem_flatMap.mp hw
  rw [Sheet.sites_transform] at hm
  obtain ⟨d', -, rfl⟩ := List.mem_map.mp hm
  obtain ⟨r, -, rfl, hn⟩ :=
    (Resolution.derives_resolveFrom _ [] d'.value d'.value).exists_evaluates hw
  rw [(hfind r.name ht he).2] at hn
  contradiction

theorem reference_finds_definition_of_name_characters :
    let css : Text := ":root" ++ inBraces "--a\\62 c:1px" ++ "c" ++ inBraces "d:var(--\\61 bc)"
    let s : Sheet := [.root [.declaration ⟨"--abc", "1px"⟩],
      .style ["c"] [.declaration ⟨"d", "var(--abc)"⟩]]
    let site : Site := ⟨⟨"d", "var(--abc)"⟩, ⟨"1px", []⟩⟩
    (Sheet.read css = .ok s ∧ site ∈ (s.transform {}).sites ∧
      Resolution.Evaluates (s.transform {}).bindings [] site.declaration.value ⟨"--abc", none⟩ ∧
      Denotes "--abc" "--abc") ∧
    (s.transform {}).bindings.find? "--abc" = some "1px" ∧
      .undefined "--abc" ∉ (transform {} css).warnings := by
  intro css s site
  have hread : Sheet.read css = .ok s := by decide +kernel
  have hm : site ∈ (s.transform {}).sites := by decide +kernel
  have hb : Text.breakOn Reference.opening "var(--abc)" =
      some (([] : Text), ("--abc)" : Text)) := by decide +kernel
  have he : Resolution.Evaluates (s.transform {}).bindings [] site.declaration.value
      ⟨"--abc", none⟩ := .here hb (by decide +kernel)
  have hn : Denotes "--abc" "--abc" := by decide +kernel
  have hs : s = [] ++ .root [.declaration ⟨"--abc", "1px"⟩] ::
      [.style ["c"] [.declaration ⟨"d", "var(--abc)"⟩]] := rfl
  have hd : (Rule.root [.declaration ⟨"--abc", "1px"⟩]).definitions =
      [] ++ ⟨"--abc", "1px"⟩ :: [] := by decide +kernel
  obtain ⟨hf, hw⟩ := reference_finds_definition (o := {}) hread rfl hs hd nofun (by decide +kernel)
  exact ⟨⟨hread, hm, he, hn⟩, (hf site hm _ he hn (by decide)).2, hw _ hn (by decide)⟩

/-- A name with a character that must be escaped is collected without the escape and looked up with
it. -/
theorem reference_misses_escaped_definition :
    let css : Text := ":root" ++ inBraces "--a\\.b:1px" ++ "c" ++ inBraces "d:var(--a\\.b)"
    let s : Sheet := [.root [.declaration ⟨"--a.b", "1px"⟩],
      .style ["c"] [.declaration ⟨"d", "var(--a\\.b)"⟩]]
    let o : Options := { preserve := false }
    Sheet.read css = .ok s ∧ Denotes "--a\\.b" "--a.b" ∧
      Resolution.Evaluates (s.transform o).bindings [] "var(--a\\.b)" ⟨"--a\\.b", none⟩ ∧
      (s.transform o).bindings.find? "--a\\.b" = none ∧
      (transform o css).result = .ok ("c" ++ inBraces "d:var(--a\\.b)") ∧
      (transform o css).warnings = [.undefined "--a\\.b"] := by
  intro css s o
  have hb : Text.breakOn Reference.opening "var(--a\\.b)" =
      some (([] : Text), ("--a\\.b)" : Text)) := by decide +kernel
  exact ⟨by decide +kernel, by decide +kernel, .here hb (by decide +kernel), by decide +kernel,
    by decide +kernel, by decide +kernel⟩

end CustomProperties
