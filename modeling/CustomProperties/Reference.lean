import CustomProperties.Parens
import CustomProperties.Split

/-! # References

A reference is written `var(name)` or `var(name, fallback)`. The fallback is everything after the
first comma at the top level of the body.
-/

namespace CustomProperties

structure Reference where
  name : Text
  fallback : Option Text
  deriving DecidableEq, Repr

namespace Reference

/-- What a reference starts with. -/
def opening : Text := "var("

/-- Whether some reference starts in a value. -/
def occursIn (value : Text) : Bool := Text.occurs opening value

/-- A blank body names nothing. -/
def ofBody? (body : Text) : Option Reference :=
  if body.all Text.isBlank then none
  else
    match Split.split [','] (some 1) body with
    | [] => none
    | [name] => some ⟨Text.strip name, none⟩
    | name :: fallback :: _ => some ⟨Text.strip name, some (Text.stripLeft fallback)⟩

theorem length_fallback_le {body fallback : Text} {r : Reference} (h : ofBody? body = some r)
    (hf : r.fallback = some fallback) : fallback.length ≤ body.length := by
  unfold ofBody? at h
  split at h
  · contradiction
  · split at h
    · contradiction
    · cases h; contradiction
    · next name rest others hs =>
      cases h
      cases hf
      have hm : rest ∈ Split.split [','] (some 1) body := by simp [hs]
      exact Nat.le_trans (List.dropWhile_sublist _).length_le (Split.length_le_of_mem_splitFrom hm)

end Reference

end CustomProperties
