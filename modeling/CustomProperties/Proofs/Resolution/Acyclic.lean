import CustomProperties.Proofs.Resolution.InPlace
import CustomProperties.Proofs.Resolution.Relevance
import Mathlib.Logic.Relation

/-! # Cycles

A name is reported as circular only if it depends on itself, through values that mention each other,
and not because it is met again on another branch. A name that does not depend on itself resolves to
what its value resolves to. If the names have ranks that fall along all dependencies, this holds of
all of them.
-/

namespace CustomProperties

namespace Bindings

def DependsOn (b : Bindings) (k j : Text) : Prop :=
  ∃ v, b.find? k = some v ∧ j ∈ b.names ∧ Reference.Mentions v j

/-- The names have ranks that fall along all dependencies. -/
def Acyclic (b : Bindings) : Prop :=
  ∃ rank : Text → Nat, ∀ k j, b.DependsOn k j → rank j < rank k

theorem acyclic_of_rank {b : Bindings} (rank : Text → Nat)
    (h : ∀ e ∈ b.entries, ∀ j ∈ Reference.mentioned e.2, j ∈ b.names → rank j < rank e.1) :
    b.Acyclic := by
  refine ⟨rank, ?_⟩
  rintro k j ⟨v, hv, hj, hm⟩
  exact h _ (mem_entries_of_find? hv) j (Reference.mem_mentioned.mpr hm) hj

theorem Acyclic.irrefl {b : Bindings} (h : b.Acyclic) (n : Text) :
    ¬ Relation.TransGen b.DependsOn n n := by
  obtain ⟨rank, hr⟩ := h
  have hlt {k j : Text} (hk : Relation.TransGen b.DependsOn k j) : rank j < rank k := by
    induction hk with
    | single hd => exact hr _ _ hd
    | tail _ hd ih => exact Nat.lt_trans (hr _ _ hd) ih
  exact fun hn => Nat.lt_irrefl _ (hlt hn)

end Bindings

namespace Resolution

open Reference (Mentions opening)
open Relation (TransGen)
open Split (delimiters)

variable {b : Bindings} {chain : List Text} {value rest name : Text} {res : Resolution}

/-- All names on the chain have values, and depend on the names with values that a text mentions. -/
structure Leads (b : Bindings) (chain : List Text) (t : Text) : Prop where
  defined : ∀ c ∈ chain, c ∈ b.names
  depend : ∀ c ∈ chain, ∀ n ∈ b.names, Mentions t n → TransGen b.DependsOn c n

theorem Leads.mono {t u : Text} (h : Leads b chain t) (hu : ∀ n, Mentions u n → Mentions t n) :
    Leads b chain u :=
  ⟨h.defined, fun c hc n hn hm => h.depend c hc n hn (hu n hm)⟩

theorem Leads.expand {t n v : Text} (h : Leads b chain t) (hm : Mentions t n)
    (hv : b.find? n = some v) : Leads b (n :: chain) v := by
  have hn : n ∈ b.names := Bindings.mem_names_of_find? hv
  have hd {j : Text} (hj : j ∈ b.names) (hjm : Mentions v j) : b.DependsOn n j := ⟨v, hv, hj, hjm⟩
  refine ⟨List.forall_mem_cons.mpr ⟨hn, h.defined⟩, List.forall_mem_cons.mpr ⟨?_, ?_⟩⟩
  · exact fun j hj hjm => .single (hd hj hjm)
  · exact fun c hc j hj hjm => (h.depend c hc n hn hm).tail (hd hj hjm)

theorem Stuck.circular_inv {body : Text} (h : Stuck b chain body (.circular name)) :
    name ∈ chain ∧ ∃ r, Reference.ofBody? body = some r ∧ r.name = name := by
  cases h with
  | circular hr hc => exact ⟨hc, _, hr, rfl⟩

/-- A name that is reported as circular depends on itself. -/
theorem Derives.transGen_of_circular (h : Derives b chain value rest res)
    (hl : Leads b chain rest) (hw : .circular name ∈ res.warnings) :
    TransGen b.DependsOn name name := by
  induction h with
  | plain => contradiction
  | kept hb hs _ ih =>
    rcases mem_warnings_splice.mp hw with ⟨-, hw⟩ | hw | hw
    · contradiction
    · obtain rfl := List.mem_singleton.mp hw
      obtain ⟨hc, r, hr, rfl⟩ := hs.circular_inv
      exact hl.depend _ hc _ (hl.defined _ hc) (.of_breakOn hb hr)
    · exact ih (hl.mono fun _ hn => hn.of_rest hb) hw
  | defined hb hr _ hv _ _ ihv ih =>
    rcases mem_warnings_splice.mp hw with ⟨-, hw⟩ | hw | hw
    · contradiction
    · exact ihv (hl.expand (.of_breakOn hb hr) hv) hw
    · exact ih (hl.mono fun _ hn => hn.of_rest hb) hw
  | fallback hb hr _ _ hf _ _ ihf ih =>
    rcases mem_warnings_splice.mp hw with ⟨-, hw⟩ | hw | hw
    · contradiction
    · exact ihf (hl.mono fun _ hn => hn.of_fallback hb hr hf) hw
    · exact ih (hl.mono fun _ hn => hn.of_rest hb) hw

theorem transGen_of_circular (h : .circular name ∈ (resolve b value).warnings) :
    TransGen b.DependsOn name name :=
  (derives_resolveFrom b [] value value).transGen_of_circular
    ⟨List.forall_mem_nil _, List.forall_mem_nil _⟩ h

theorem resolveFrom_singleton {v : Text} (h : ¬ TransGen b.DependsOn name name)
    (hv : b.find? name = some v) : resolveFrom b [name] v v = resolve b v := by
  let reached : Set Text := {n | n ∈ b.names → TransGen b.DependsOn name n}
  have hagree : AgreeOn reached b b := by
    refine ⟨fun _ _ => rfl, fun n hn u hu m hm hmem => ?_⟩
    exact (hn (Bindings.mem_names_of_find? hu)).tail ⟨u, hu, hmem, hm⟩
  have hout : name ∉ reached := fun hn => h (hn (Bindings.mem_names_of_find? hv))
  have hchain : ∀ n ∈ reached, n ∈ [name] ↔ n ∈ [] := fun n hn => by
    rw [List.mem_singleton, iff_false_right List.not_mem_nil]
    exact fun he => hout (he ▸ hn)
  exact resolveFrom_congr hagree hchain fun n hn hmem => .single ⟨v, hv, hmem, hn⟩

theorem resolve_reference {v : Text} (hv : b.find? name = some v) (hne : name ≠ [])
    (hstrip : Text.strip name = name) (hn : ∀ c ∈ name, c ∉ delimiters) :
    resolve b (opening ++ (name ++ [')'])) = resolveFrom b [name] v v := by
  have hbody : Reference.bodyOf [] name [] none = name := by simp [Reference.bodyOf]
  have hof : Reference.ofBody? (Reference.bodyOf [] name [] none) = some ⟨name, none⟩ :=
    Reference.ofBody?_bodyOf hne hstrip hn (List.forall_mem_nil _) (List.forall_mem_nil _)
  have hbal : Parens.balanced 0 (Reference.bodyOf [] name [] none) = true :=
    Reference.balanced_bodyOf hn (List.forall_mem_nil _) (List.forall_mem_nil _) (by simp)
  rw [hbody] at hof hbal
  have hcut : Text.breakOn opening (opening ++ (name ++ [')'])) = some ([], name ++ [')']) :=
    Text.breakOn_of_not_occurs (x := []) (by decide) _ rfl
  rw [resolve, resolveFrom_of_some hcut, Parens.group_of_balanced hbal, resolveFrom_of_none rfl]
  simp [substitute, hof, hv, splice]

/-- Where names have ranks nothing is circular, and a reference to a name is resolved as its value
is. -/
theorem resolve_of_acyclic {b : Bindings} (h : b.Acyclic) :
    (∀ value name, .circular name ∉ (resolve b value).warnings) ∧
    ∀ name v, b.find? name = some v → Text.strip name = name → name ≠ [] →
      (∀ c ∈ name, c ∉ delimiters) → resolve b (opening ++ (name ++ [')'])) = resolve b v := by
  refine ⟨fun value name hw => h.irrefl name (transGen_of_circular hw), ?_⟩
  intro name v hv hstrip hne hn
  rw [resolve_reference hv hne hstrip hn, resolveFrom_singleton (h.irrefl name) hv]

/-- One name is met on two branches, and again in a fallback. -/
theorem resolve_of_acyclic_diamond :
    let v : Text := "var(--b) var(--c, var(--b))"
    let b := Bindings.ofList
      [("--a", v), ("--b", "var(--d)"), ("--c", "1px var(--d) var(--u)"), ("--d", "2px")]
    (b.Acyclic ∧ b.find? "--a" = some v ∧ Text.strip ("--a" : Text) = "--a" ∧
      ∀ c ∈ ("--a" : Text), c ∉ delimiters) ∧
    resolve b "var(--a)" = resolve b v ∧
      resolve b v = ⟨"2px 1px 2px var(--u)", [.undefined "--u"]⟩ ∧
      ∀ value, .circular "--d" ∉ (resolve b value).warnings := by
  intro v b
  let ranked : List Text := ["--d", "--b", "--c", "--a"]
  have hac : b.Acyclic := Bindings.acyclic_of_rank ranked.idxOf (by decide +kernel)
  have hv : b.find? "--a" = some v := by decide +kernel
  have hstrip : Text.strip ("--a" : Text) = "--a" := by decide
  have hn : ∀ c ∈ ("--a" : Text), c ∉ delimiters := by decide
  obtain ⟨hcircular, href⟩ := resolve_of_acyclic hac
  exact ⟨⟨hac, hv, hstrip, hn⟩, href "--a" v hv hstrip (by decide) hn, by decide +kernel,
    fun value => hcircular value "--d"⟩

end Resolution

end CustomProperties
