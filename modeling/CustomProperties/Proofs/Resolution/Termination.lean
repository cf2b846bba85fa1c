import CustomProperties.Proofs.Resolution.Located
import Mathlib.Logic.Relation

/-! # Termination

A value is resolved in rounds. A round reads a value from a position on, deals with the next
reference, and leads to further rounds: on the value of the name, on the fallback, and on the text
behind the reference. The first of these uses a name up and the others leave less text, so that no
sequence of rounds goes on for ever, whatever the values of the names are.
-/

namespace CustomProperties.Resolution

open Reference (opening)

/-- A round reads `value` from `position` on, inside the expansion of the names on `chain`. -/
structure Round where
  chain : List Text
  value : Text
  position : Nat
  deriving DecidableEq, Repr

namespace Round

def start (value : Text) : Round := ⟨[], value, 0⟩

def behind (r : Round) (position : Nat) : Round := { r with position }

/-- What a round comes to, if it ends: a resolution, or a group that is missing. -/
abbrev Attempt := ExceptT Parens.Missing Option

def substitute (b : Bindings) (call : Round → Attempt Resolution) (r : Round) (kept body : Text) :
    Attempt Resolution :=
  match Reference.ofBody? body with
  | none => pure ⟨kept, [.blank]⟩
  | some ref =>
    if ref.name ∈ r.chain then pure ⟨kept, [.circular ref.name]⟩
    else
      match b.find? ref.name, ref.fallback with
      | some v, _ => call ⟨ref.name :: r.chain, v, 0⟩
      | none, some f => call ⟨r.chain, f, 0⟩
      | none, none => pure ⟨kept, [.undefined ref.name]⟩

def run (b : Bindings) (call : Round → Attempt Resolution) (r : Round) : Attempt Resolution :=
  match Text.findFrom? opening r.value r.position with
  | none => pure ⟨r.value.drop r.position, []⟩
  | some index => do
    let g ← ExceptT.mk (some (Parens.locate r.value (index + opening.length - 1)))
    let own ← r.substitute b call ((r.value.take g.stop).drop index) g.body
    let others ← call (r.behind g.stop)
    return splice r.value ((r.value.take index).drop r.position) g.closed own others

end Round

/-- Resolve within a depth of calls; nothing if the depth does not suffice. -/
def resolveWithin (b : Bindings) : (depth : Nat) → Round → Round.Attempt Resolution
  | 0, _ => ExceptT.mk none
  | depth + 1, r => r.run b (resolveWithin b depth)

namespace Round

structure Meets (r : Round) (index : Nat) (g : Parens.Located) : Prop where
  found : Text.findFrom? opening r.value r.position = some index
  located : Parens.locate r.value (index + opening.length - 1) = .ok g

inductive Expands (b : Bindings) (r : Round) : Round → Prop

  | intro {index : Nat} {g : Parens.Located} {ref : Reference} {v : Text} : r.Meets index g →
      Reference.ofBody? g.body = some ref → ref.name ∉ r.chain → b.find? ref.name = some v →
      Expands b r ⟨ref.name :: r.chain, v, 0⟩

inductive FallsBack (b : Bindings) (r : Round) : Round → Prop

  | intro {index : Nat} {g : Parens.Located} {ref : Reference} {f : Text} : r.Meets index g →
      Reference.ofBody? g.body = some ref → ref.name ∉ r.chain → b.find? ref.name = none →
      ref.fallback = some f → FallsBack b r ⟨r.chain, f, 0⟩

inductive Advances (r : Round) : Round → Prop

  | intro {index : Nat} {g : Parens.Located} : r.Meets index g → Advances r (r.behind g.stop)

def Calls (b : Bindings) (r r' : Round) : Prop := Expands b r r' ∨ FallsBack b r r' ∨ Advances r r'

/-- The rounds that the resolution of a value comes to. -/
def Reached (b : Bindings) (value : Text) (r : Round) : Prop :=
  Relation.ReflTransGen (Calls b) (start value) r

variable {b : Bindings} {r r' : Round} {index : Nat} {g : Parens.Located}

/-! ### The calls of a round -/

theorem run_congr {call call' : Round → Attempt Resolution}
    (h : ∀ r', Calls b r r' → call r' = call' r') : r.run b call = r.run b call' := by
  unfold run
  cases hf : Text.findFrom? opening r.value r.position with
  | none => rfl
  | some index =>
    dsimp only
    cases hg : Parens.locate r.value (index + opening.length - 1) with
    | error m => rfl
    | ok g =>
      have hm : r.Meets index g := ⟨hf, hg⟩
      have hs (kept : Text) : r.substitute b call kept g.body = r.substitute b call' kept g.body := by
        unfold substitute
        split
        next => rfl
        next ref hr =>
          split
          next => rfl
          next hc =>
            split
            next v hv => exact h _ (.inl (.intro hm hr hc hv))
            next f hv hfb => exact h _ (.inr (.inl (.intro hm hr hc hv hfb)))
            next => rfl
      have ha : call (r.behind g.stop) = call' (r.behind g.stop) := h _ (.inr (.inr (.intro hm)))
      change (r.substitute b call _ g.body >>= fun own => _) =
        (r.substitute b call' _ g.body >>= fun own => _)
      rw [hs, ha]

def resolved (b : Bindings) (r : Round) : Attempt Resolution :=
  ExceptT.mk (some (resolveAt b r.chain r.value r.position))

theorem substitute_resolved (r : Round) (kept body : Text) :
    r.substitute b (resolved b) kept body = ExceptT.mk (some (substituteAt b r.chain kept body)) := by
  unfold substitute substituteAt
  cases Reference.ofBody? body with
  | none => rfl
  | some ref =>
    dsimp only
    split
    next => rfl
    next =>
      cases b.find? ref.name with
      | some v => rfl
      | none => cases ref.fallback <;> rfl

theorem exists_meets (h : Text.findFrom? opening r.value r.position = some index) :
    ∃ g, r.Meets index g := by
  obtain ⟨⟨before, after⟩, hb, -⟩ := Option.map_eq_some_iff.mp h
  obtain ⟨index', g, hf, hg, -⟩ := locate_of_breakOn hb
  obtain rfl : index = index' := Option.some.inj (h.symm.trans hf)
  exact ⟨g, h, hg⟩

theorem run_resolved (r : Round) : r.run b (resolved b) = resolved b r := by
  unfold run
  cases hf : Text.findFrom? opening r.value r.position with
  | none =>
    rw [resolved, resolveAt_of_none hf]
    rfl
  | some index =>
    obtain ⟨g, -, hg⟩ := exists_meets hf
    dsimp only
    rw [hg, resolved, resolveAt_of_some hf hg]
    change (r.substitute b (resolved b) _ g.body >>= fun own => _) = _
    rw [substitute_resolved]
    cases substituteAt b r.chain ((r.value.take g.stop).drop index) g.body with
    | error m => rfl
    | ok own =>
      have hb : resolved b (r.behind g.stop) =
          ExceptT.mk (some (resolveAt b r.chain r.value g.stop)) := rfl
      rw [hb]
      cases resolveAt b r.chain r.value g.stop <;> rfl

/-! ### Every call has less to do -/

theorem Meets.bounds (h : r.Meets index g) :
    r.position < g.stop ∧ g.stop ≤ r.value.length ∧
      g.body.length < r.value.length - r.position := by
  have hi := lt_length_of_findFrom? h.found
  have hs := Parens.lt_stop_of_locate h.located
  have hl := Parens.stop_le_length_of_locate h.located
  have hb := Parens.length_body_lt_of_locate h.located
  have ho : opening.length = 4 := rfl
  rw [List.length_drop] at hb
  omega

theorem Expands.lengthens (h : Expands b r r') :
    ∃ name, name ∉ r.chain ∧ b.find? name = some r'.value ∧ r'.chain = name :: r.chain ∧
      r'.position = 0 := by
  obtain ⟨-, -, hc, hv⟩ := h
  exact ⟨_, hc, hv, rfl, rfl⟩

theorem FallsBack.shortens (h : FallsBack b r r') :
    r'.chain = r.chain ∧ r'.value.length < r.value.length - r.position ∧ r'.position = 0 := by
  obtain ⟨hm, hr, -, -, hf⟩ := h
  exact ⟨rfl, Nat.lt_of_le_of_lt (Reference.length_fallback_le hr hf) hm.bounds.2.2, rfl⟩

theorem Advances.advances (h : Advances r r') :
    r'.chain = r.chain ∧ r'.value = r.value ∧ r.position < r'.position ∧
      r'.position ≤ r.value.length := by
  obtain ⟨hm⟩ := h
  exact ⟨rfl, rfl, hm.bounds.1, hm.bounds.2.1⟩

def work (b : Bindings) (r : Round) : Nat := Resolution.work b r.chain (r.value.drop r.position)

theorem work_lt_of_calls (h : Calls b r r') : r'.work b < r.work b := by
  rcases h with h | h | h
  · obtain ⟨name, hc, hv, hchain, hpos⟩ := h.lengthens
    rw [work, work, hchain, hpos, List.drop_zero]
    exact work_value_lt hv hc
  · obtain ⟨hchain, hl, hpos⟩ := h.shortens
    rw [work, work, hchain, hpos, List.drop_zero]
    exact work_lt (by rwa [List.length_drop])
  · obtain ⟨hchain, hvalue, hlt, hle⟩ := h.advances
    rw [work, work, hchain, hvalue]
    refine work_lt ?_
    rw [List.length_drop, List.length_drop]
    omega

theorem wellFounded_calls (b : Bindings) : WellFounded fun r' r => Calls b r r' :=
  Subrelation.wf work_lt_of_calls (measure (work b)).wf

/-- The work of a round bounds the depth of its calls. -/
theorem resolveWithin_eq {depth : Nat} (h : r.work b < depth) :
    resolveWithin b depth r = resolved b r := by
  induction depth generalizing r with
  | zero => omega
  | succ depth ih =>
    have hc : ∀ r', Calls b r r' → resolveWithin b depth r' = resolved b r' := fun r' hr =>
      ih (by have := work_lt_of_calls hr; omega)
    rw [resolveWithin, run_congr hc, run_resolved]

/-! ### Rounds that are reached -/

/-- What holds of every round of a resolution. -/
structure IsProper (b : Bindings) (r : Round) : Prop where
  nodup : r.chain.Nodup
  defined : ∀ name ∈ r.chain, name ∈ b.names
  within : r.position ≤ r.value.length

theorem IsProper.start (b : Bindings) (value : Text) : (start value).IsProper b :=
  ⟨List.nodup_nil, nofun, Nat.zero_le _⟩

theorem IsProper.call (h : r.IsProper b) (hc : Calls b r r') : r'.IsProper b := by
  rcases hc with hc | hc | hc
  · obtain ⟨name, hn, hv, hchain, hpos⟩ := hc.lengthens
    refine ⟨?_, ?_, hpos ▸ Nat.zero_le _⟩
    · rw [hchain]
      exact List.nodup_cons.mpr ⟨hn, h.nodup⟩
    · rw [hchain]
      exact List.forall_mem_cons.mpr ⟨Bindings.mem_names_of_find? hv, h.defined⟩
  · obtain ⟨hchain, -, hpos⟩ := hc.shortens
    exact ⟨hchain ▸ h.nodup, hchain ▸ h.defined, hpos ▸ Nat.zero_le _⟩
  · obtain ⟨hchain, hvalue, -, hle⟩ := hc.advances
    exact ⟨hchain ▸ h.nodup, hchain ▸ h.defined, hvalue ▸ hle⟩

theorem Reached.isProper {value : Text} (h : Reached b value r) : r.IsProper b := by
  induction h with
  | refl => exact .start b value
  | tail _ hc ih => exact ih.call hc

end Round

theorem work_start (b : Bindings) (value : Text) :
    (Round.start value).work b = b.size * (b.longest + 1) + value.length := by
  have hu : unused b [] = b.size := by
    rw [unused, List.filter_eq_self.mpr (by simp), Bindings.names, List.length_map, Bindings.size]
  rw [Round.work, Resolution.work, Round.start, hu, List.drop_zero]

open Round in
/-- The resolution of a value comes to an end, at a depth that the number of names and the longest
value bound. -/
theorem resolve_terminates (b : Bindings) (value : Text) :
    (∀ r, Reached b value r → r.chain.Nodup ∧ ∀ name ∈ r.chain, name ∈ b.names) ∧
    (∀ r r', Expands b r r' → ∃ name, name ∉ r.chain ∧ b.find? name = some r'.value ∧
      r'.chain = name :: r.chain) ∧
    (∀ r r', FallsBack b r r' → r'.chain = r.chain ∧ r'.value.length < r.value.length) ∧
    (∀ r r', Advances r r' → r'.chain = r.chain ∧ r'.value = r.value ∧
      r.position < r'.position ∧ r'.position ≤ r.value.length) ∧
    (∀ r call call', (∀ r', Calls b r r' → call r' = call' r') → r.run b call = r.run b call') ∧
    (WellFounded fun r' r => Calls b r r') ∧
    ∀ depth, b.size * (b.longest + 1) + value.length < depth →
      resolveWithin b depth (start value) = ExceptT.mk (some (.ok (resolve b value))) := by
  refine ⟨fun r hr => ⟨hr.isProper.nodup, hr.isProper.defined⟩, ?_, ?_, fun r r' hc => hc.advances,
    fun r call call' h => run_congr h, wellFounded_calls b, ?_⟩
  · intro r r' hc
    obtain ⟨name, hn, hv, hchain, -⟩ := hc.lengthens
    exact ⟨name, hn, hv, hchain⟩
  · intro r r' hc
    obtain ⟨hchain, hl, -⟩ := hc.shortens
    exact ⟨hchain, by omega⟩
  · intro depth hd
    rw [resolveWithin_eq (work_start b value ▸ hd), resolved, resolveAt_eq]
    rfl

end CustomProperties.Resolution
