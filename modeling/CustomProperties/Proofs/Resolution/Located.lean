import CustomProperties.Proofs.Parens.Located
import CustomProperties.Proofs.Resolution.Derivation

/-! # Resolution by positions

A value can also be resolved in place: the next reference is looked for from a position on, its
group is located by the position of its parenthesis, and the text goes on where the group stops.
Locating a group may fail, but never does so here, since a parenthesis ends every opening of a
reference. Both ways of resolving agree.
-/

namespace CustomProperties

def Text.findFrom? (pattern t : Text) (position : Nat) : Option Nat :=
  (breakOn pattern (t.drop position)).map fun (before, _) => position + before.length

namespace Resolution

variable {b : Bindings} {chain : List Text} {value : Text} {position index : Nat}

theorem lt_length_of_findFrom? (h : Text.findFrom? Reference.opening value position = some index) :
    position ≤ index ∧ index + Reference.opening.length ≤ value.length := by
  obtain ⟨⟨before, after⟩, hb, rfl⟩ := Option.map_eq_some_iff.mp h
  have hl := Text.length_of_breakOn hb
  have ho : Reference.opening.length = 4 := rfl
  rw [List.length_drop] at hl
  dsimp only
  omega

/-- Resolve a value from a position on, inside the expansion of the names on `chain`. -/
def resolveAt (b : Bindings) (chain : List Text) (value : Text) (position : Nat) :
    Except Parens.Missing Resolution :=
  match _ : Text.findFrom? Reference.opening value position with
  | none => .ok ⟨value.drop position, []⟩
  | some index =>
    match _ : Parens.locate value (index + Reference.opening.length - 1) with
    | .error m => .error m
    | .ok g =>
      let kept := (value.take g.stop).drop index
      let own : Except Parens.Missing Resolution :=
        match _ : Reference.ofBody? g.body with
        | none => .ok ⟨kept, [.blank]⟩
        | some r =>
          if _ : r.name ∈ chain then .ok ⟨kept, [.circular r.name]⟩
          else
            match _ : b.find? r.name with
            | some v => resolveAt b (r.name :: chain) v 0
            | none =>
              match _ : r.fallback with
              | some f => resolveAt b chain f 0
              | none => .ok ⟨kept, [.undefined r.name]⟩
      own.bind fun own => (resolveAt b chain value g.stop).map fun others =>
        splice value ((value.take index).drop position) g.closed own others
termination_by work b chain (value.drop position)
decreasing_by
  · exact work_value_lt ‹_› ‹_›
  · have hi := lt_length_of_findFrom? ‹_›
    have hb := Parens.length_body_lt_of_locate ‹_›
    have hf := Reference.length_fallback_le ‹_› ‹_›
    have ho : Reference.opening.length = 4 := rfl
    refine work_lt ?_
    rw [List.length_drop] at hb
    rw [List.length_drop, List.length_drop]
    omega
  · have hi := lt_length_of_findFrom? ‹_›
    have hs := Parens.lt_stop_of_locate ‹_›
    have ho : Reference.opening.length = 4 := rfl
    refine work_lt ?_
    rw [List.length_drop, List.length_drop]
    omega

theorem resolveAt_of_none (h : Text.findFrom? Reference.opening value position = none) :
    resolveAt b chain value position = .ok ⟨value.drop position, []⟩ := by
  rw [resolveAt]
  split <;> simp_all

def substituteAt (b : Bindings) (chain : List Text) (kept body : Text) :
    Except Parens.Missing Resolution :=
  match Reference.ofBody? body with
  | none => .ok ⟨kept, [.blank]⟩
  | some r =>
    if r.name ∈ chain then .ok ⟨kept, [.circular r.name]⟩
    else
      match b.find? r.name, r.fallback with
      | some v, _ => resolveAt b (r.name :: chain) v 0
      | none, some f => resolveAt b chain f 0
      | none, none => .ok ⟨kept, [.undefined r.name]⟩

theorem resolveAt_of_some {g : Parens.Located}
    (h : Text.findFrom? Reference.opening value position = some index)
    (hg : Parens.locate value (index + Reference.opening.length - 1) = .ok g) :
    resolveAt b chain value position =
      (substituteAt b chain ((value.take g.stop).drop index) g.body).bind fun own =>
        (resolveAt b chain value g.stop).map fun others =>
          splice value ((value.take index).drop position) g.closed own others := by
  rw [resolveAt]
  split
  next hn => rw [h] at hn; contradiction
  next hs =>
    rw [h] at hs
    cases hs
    split
    next he => rw [hg] at he; contradiction
    next hg' =>
      rw [hg] at hg'
      cases hg'
      unfold substituteAt
      cases Reference.ofBody? g.body with
      | none => rfl
      | some r =>
        dsimp only
        split
        next => rfl
        next =>
          cases b.find? r.name with
          | some v => rfl
          | none => cases r.fallback <;> rfl

/-! ### Agreement -/

theorem locate_of_breakOn {before after : Text}
    (h : Text.breakOn Reference.opening (value.drop position) = some (before, after)) :
    ∃ index g, Text.findFrom? Reference.opening value position = some index ∧
      Parens.locate value (index + Reference.opening.length - 1) = .ok g ∧
      g.body = (Parens.group after).body ∧ g.closed = (Parens.group after).closed ∧
      (value.take index).drop position = before ∧
      (value.take g.stop).drop index = Reference.opening ++ (Parens.group after).tail ∧
      value.drop g.stop = (Parens.group after).rest := by
  have ho : Reference.opening = "var" ++ ['('] := rfl
  have hd := Text.breakOn_append h
  have hp : (value.take position).length = position := by
    have hl := congrArg List.length hd
    simp only [List.length_drop, List.length_append, ho] at hl
    exact List.length_take_of_le (by simp at hl; omega)
  have hv : value = (value.take position ++ before ++ "var") ++ '(' :: after := by
    have ht := List.take_append_drop position value
    rw [hd, ho] at ht
    refine ht.symm.trans ?_
    simp only [List.append_assoc, List.cons_append, List.nil_append]
  generalize value.take position = start at hp hv
  subst hv
  have hi : (start ++ before ++ "var").length =
      position + before.length + Reference.opening.length - 1 := by
    rw [ho, ← hp]
    simp
    omega
  refine ⟨position + before.length, .between (start ++ before ++ "var") after, ?_, ?_, rfl, rfl,
    ?_, ?_, Parens.drop_stop _ _⟩
  · rw [Text.findFrom?, h]
    rfl
  · rw [← hi]
    exact Parens.locate_between _ _
  · rw [← hp, ← List.length_append, List.append_assoc (start ++ before), List.take_left,
      List.drop_left]
  · rw [Parens.take_stop, ← hp, ← List.length_append, List.append_assoc, List.drop_left]
    rfl

theorem Derives.resolveAt_eq {rest : Text} {res : Resolution} (h : Derives b chain value rest res) :
    ∀ position, value.drop position = rest → resolveAt b chain value position = .ok res := by
  induction h with
  | plain hn =>
    rintro position rfl
    exact resolveAt_of_none (by rw [Text.findFrom?, hn]; rfl)
  | kept hb hs _ ih =>
    rintro position rfl
    obtain ⟨index, g, hf, hg, hbody, hclosed, hbefore, hkept, hrest⟩ := locate_of_breakOn hb
    rw [resolveAt_of_some hf hg, ih g.stop hrest, hbefore, hkept, hbody, hclosed]
    cases hs with
    | blank hn => simp [substituteAt, hn, Except.bind, Except.map]
    | circular hr hc => simp [substituteAt, hr, hc, Except.bind, Except.map]
    | undefined hr hc hv hf => simp [substituteAt, hr, hc, hv, hf, Except.bind, Except.map]
  | defined hb hr hc hv _ _ ihv ih =>
    rintro position rfl
    obtain ⟨index, g, hf, hg, hbody, hclosed, hbefore, hkept, hrest⟩ := locate_of_breakOn hb
    rw [resolveAt_of_some hf hg, ih g.stop hrest, hbefore, hbody, hclosed]
    simp [substituteAt, hr, hc, hv, ihv 0 rfl, Except.bind, Except.map]
  | fallback hb hr hc hv hf _ _ ihf ih =>
    rintro position rfl
    obtain ⟨index, g, hfound, hg, hbody, hclosed, hbefore, hkept, hrest⟩ := locate_of_breakOn hb
    rw [resolveAt_of_some hfound hg, ih g.stop hrest, hbefore, hbody, hclosed]
    simp [substituteAt, hr, hc, hv, hf, ihf 0 rfl, Except.bind, Except.map]

/-- Both ways of resolving agree, so no group of a reference is ever missing. -/
theorem resolveAt_eq (b : Bindings) (chain : List Text) (value : Text) (position : Nat) :
    resolveAt b chain value position = .ok (resolveFrom b chain value (value.drop position)) :=
  (derives_resolveFrom b chain value _).resolveAt_eq position rfl

end Resolution

end CustomProperties
