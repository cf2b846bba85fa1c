import CustomProperties.Bindings
import CustomProperties.Reference

/-! # Resolution of references

A defined name wins over the fallback, and the value put in its place is resolved in turn. What
cannot be resolved keeps its text and is reported. The names being expanded form a chain, and a
reference to one of them is circular.
-/

namespace CustomProperties

/-- What a resolution reports. -/
inductive Warning
  | unclosed (value : Text)
  | blank
  | circular (name : Text)
  | undefined (name : Text)
  deriving DecidableEq, Repr

def Warning.message : Warning → Text
  | .unclosed value => "CSS transform warning: missing closing \")\" in the value \"" ++ value ++ "\""
  | .blank => "CSS transform warning: var() must contain a non-whitespace string"
  | .circular name =>
    "CSS transform warning: variable \"" ++ name ++ "\" is part of a circular reference"
  | .undefined name => "CSS transform warning: variable \"" ++ name ++ "\" is undefined"

structure Resolution where
  text : Text
  warnings : List Warning
  deriving DecidableEq, Repr

namespace Resolution

/-- The number of defined names that are not on the chain. -/
def unused (b : Bindings) (chain : List Text) : Nat := (b.names.filter (· ∉ chain)).length

theorem unused_cons_lt {b : Bindings} {chain : List Text} {name value : Text}
    (h : b.find? name = some value) (hc : name ∉ chain) :
    unused b (name :: chain) < unused b chain := by
  have he : b.names.filter (· ∉ name :: chain) = (b.names.filter (· ∉ chain)).filter (· ≠ name) := by
    rw [List.filter_filter]
    congr 1
    funext n
    simp
  rw [unused, unused, he, List.length_filter_lt_length_iff_exists]
  exact ⟨name, by simp [Bindings.mem_names_of_find? h, hc], by simp⟩

theorem length_after_lt {t before after : Text}
    (h : Text.breakOn Reference.opening t = some (before, after)) : after.length < t.length := by
  have hl := Text.length_of_breakOn h
  have ho : Reference.opening.length = 4 := rfl
  omega

/-- Expanding a name uses it up, and all else leaves less text to read. -/
def work (b : Bindings) (chain : List Text) (rest : Text) : Nat :=
  unused b chain * (b.longest + 1) + rest.length

theorem work_value_lt {b : Bindings} {chain : List Text} {name value rest : Text}
    (h : b.find? name = some value) (hc : name ∉ chain) :
    work b (name :: chain) value < work b chain rest := by
  have hu := Nat.mul_le_mul_right (b.longest + 1) (Nat.succ_le_of_lt (unused_cons_lt h hc))
  have hl := Bindings.length_le_longest h
  rw [Nat.succ_mul] at hu
  unfold work
  omega

theorem work_lt {b : Bindings} {chain : List Text} {rest rest' : Text}
    (h : rest'.length < rest.length) : work b chain rest' < work b chain rest :=
  Nat.add_lt_add_left h _

/-- Resolve `rest`, the part of `value` that is still to be read, inside the expansion of the names
on `chain`. -/
def resolveFrom (b : Bindings) (chain : List Text) (value rest : Text) : Resolution :=
  match h : Text.breakOn Reference.opening rest with
  | none => ⟨rest, []⟩
  | some (before, after) =>
    let g := Parens.group after
    let kept := Reference.opening ++ g.tail
    let own : Resolution :=
      match _ : Reference.ofBody? g.body with
      | none => ⟨kept, [.blank]⟩
      | some r =>
        if _ : r.name ∈ chain then ⟨kept, [.circular r.name]⟩
        else
          match _ : b.find? r.name with
          | some v => resolveFrom b (r.name :: chain) v v
          | none =>
            match _ : r.fallback with
            | some f => resolveFrom b chain f f
            | none => ⟨kept, [.undefined r.name]⟩
    let others := resolveFrom b chain value g.rest
    ⟨before ++ own.text ++ others.text,
      (if g.closed then [] else [.unclosed value]) ++ own.warnings ++ others.warnings⟩
termination_by work b chain rest
decreasing_by
  · exact work_value_lt ‹_› ‹_›
  · exact work_lt (Nat.lt_of_le_of_lt (Reference.length_fallback_le ‹_› ‹_›)
      (Nat.lt_of_le_of_lt (Parens.length_body_le after) (length_after_lt h)))
  · exact work_lt (Nat.lt_of_le_of_lt (Parens.length_rest_le after) (length_after_lt h))

end Resolution

/-- Every resolvable reference of a value replaced. -/
def resolve (b : Bindings) (value : Text) : Resolution := Resolution.resolveFrom b [] value value

end CustomProperties
