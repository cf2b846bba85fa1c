import CustomProperties.Proofs.Resolution.Mentions
import Mathlib.Data.Set.Defs

/-! # What a resolution depends on

A resolution looks up the names that its text mentions, and then those that their values mention.
On a set of names that is closed under this, neither the values of other names nor the names that
are being expanded outside of the set can be told from what is resolved or reported.
-/

namespace CustomProperties.Resolution

open Reference (Mentions)

/-- The names of a set have the same values in two bindings, and their values mention no others. -/
structure AgreeOn (S : Set Text) (b b' : Bindings) : Prop where
  same : ∀ n ∈ S, b.find? n = b'.find? n
  closed : ∀ n ∈ S, ∀ v, b.find? n = some v → ∀ m, Mentions v m → m ∈ S

variable {S : Set Text} {b b' : Bindings} {chain chain' : List Text} {value rest body : Text}
  {w : Warning} {res : Resolution}

theorem Stuck.congr (h : Stuck b chain body w) (hb : AgreeOn S b b')
    (hc : ∀ n ∈ S, n ∈ chain ↔ n ∈ chain')
    (hS : ∀ r, Reference.ofBody? body = some r → r.name ∈ S) : Stuck b' chain' body w := by
  cases h with
  | blank hn => exact .blank hn
  | circular hr hm => exact .circular hr ((hc _ (hS _ hr)).mp hm)
  | undefined hr hm hv hf =>
    exact .undefined hr (mt (hc _ (hS _ hr)).mpr hm) (hb.same _ (hS _ hr) ▸ hv) hf

theorem Derives.congr (h : Derives b chain value rest res) (hb : AgreeOn S b b')
    (hc : ∀ n ∈ S, n ∈ chain ↔ n ∈ chain') (hS : ∀ n, Mentions rest n → n ∈ S) :
    Derives b' chain' value rest res := by
  induction h generalizing chain' with
  | plain h => exact .plain h
  | kept h hs _ ih =>
    exact .kept h (hs.congr hb hc fun r hr => hS _ (.of_breakOn h hr))
      (ih hc fun n hn => hS n (hn.of_rest h))
  | @defined chain _ _ _ _ v r _ _ h hr hn hv _ _ ihv ih =>
    have hm : r.name ∈ S := hS _ (.of_breakOn h hr)
    have hc' : ∀ n ∈ S, n ∈ r.name :: chain ↔ n ∈ r.name :: chain' := fun n hn => by
      rw [List.mem_cons, List.mem_cons, hc n hn]
    exact .defined h hr (mt (hc _ hm).mpr hn) (hb.same _ hm ▸ hv) (ihv hc' (hb.closed _ hm v hv))
      (ih hc fun n hn => hS n (hn.of_rest h))
  | fallback h hr hn hv hf _ _ ihf ih =>
    have hm := hS _ (.of_breakOn h hr)
    exact .fallback h hr (mt (hc _ hm).mpr hn) (hb.same _ hm ▸ hv) hf
      (ihf hc fun n hn => hS n (hn.of_fallback h hr hf)) (ih hc fun n hn => hS n (hn.of_rest h))

theorem resolveFrom_congr (hb : AgreeOn S b b') (hc : ∀ n ∈ S, n ∈ chain ↔ n ∈ chain')
    (hS : ∀ n, Mentions rest n → n ∈ S) :
    resolveFrom b chain value rest = resolveFrom b' chain' value rest :=
  (((derives_resolveFrom b chain value rest).congr hb hc hS).eq).symm

/-- Bindings that agree on all names that a value can come to resolve it alike, and report the same
in the same order. -/
theorem resolve_eq_of_agreement {b b' : Bindings} {S : Set Text} {value : Text}
    (hvalue : ∀ n, Mentions value n → n ∈ S)
    (hclosed : ∀ n ∈ S, ∀ v, b.find? n = some v → ∀ m, Mentions v m → m ∈ S)
    (hsame : ∀ n ∈ S, b.find? n = b'.find? n) : resolve b value = resolve b' value :=
  resolveFrom_congr ⟨hsame, hclosed⟩ (fun _ _ => Iff.rfl) hvalue

/-- The names that matter stand in a fallback that is not used, in another name, in a reference that
is not closed and on a cycle. -/
theorem resolve_eq_of_agreement_on_cycle :
    let v : Text := "var(--b, var(--c)) var(--d"
    let b := Bindings.ofList [("--a", v), ("--z", "0"), ("--b", "var(--a)")]
    let b' := Bindings.ofList [("--b", "var(--a)"), ("--z", "var(--z)"), ("--y", ""), ("--a", v)]
    let value : Text := "var(--a) var(x var(--e))"
    let names : List Text := ["--a", "--b", "--c", "--d", "x var(--e)", "--e"]
    ((∀ n, Mentions value n → n ∈ names) ∧
      (∀ n ∈ names, ∀ v, b.find? n = some v → ∀ m, Mentions v m → m ∈ names) ∧
      ∀ n ∈ names, b.find? n = b'.find? n) ∧
    b ≠ b' ∧ resolve b value = resolve b' value ∧
      resolve b value = ⟨"var(--a) var(--d var(x var(--e))",
        [.circular "--a", .unclosed v, .undefined "--d", .undefined "x var(--e)"]⟩ := by
  intro v b b' value names
  have hnames : ∀ n ∈ Reference.mentioned value, n ∈ names := by decide +kernel
  have hvalues : ∀ n ∈ names, ∀ v ∈ b.find? n, ∀ m ∈ Reference.mentioned v, m ∈ names := by
    decide +kernel
  have hvalue : ∀ n, Mentions value n → n ∈ names := fun n hn =>
    hnames n (Reference.mem_mentioned.mpr hn)
  have hclosed : ∀ n ∈ names, ∀ v, b.find? n = some v → ∀ m, Mentions v m → m ∈ names :=
    fun n hn v hv m hm => hvalues n hn v hv m (Reference.mem_mentioned.mpr hm)
  have hsame : ∀ n ∈ names, b.find? n = b'.find? n := by decide +kernel
  exact ⟨⟨hvalue, hclosed, hsame⟩, by decide +kernel,
    resolve_eq_of_agreement (S := (· ∈ names)) hvalue hclosed hsame, by decide +kernel⟩

end CustomProperties.Resolution
