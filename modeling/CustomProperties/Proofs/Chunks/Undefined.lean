import CustomProperties.Proofs.Chunks.Isolation
import CustomProperties.Proofs.Transform.Pruning

/-! # Warnings of undefined variables

A run that reports a variable as undefined has no value for it. Chunks that can be read together
are resolved under the definitions of their joined text, which are those of the chunks unless one
chunk swallows a rule of another. Otherwise each chunk is transformed on its own to find those at
fault, and then it has only its own definitions: it may miss a variable that another chunk
defines.
-/

namespace CustomProperties

variable {o : Options} {chunks : List Text} {css name : Text} {s : Sheet}

namespace Sheet

def Lacks (s : Sheet) (name : Text) : Prop := ∀ d ∈ s.definitions, d.property ≠ name

theorem lacks_of_mem_warnings (h : .undefined name ∈ (s.transform o).warnings) :
    s.Lacks name ∧ ∀ e ∈ o.overrides.entries, normalizeName e.1 ≠ name := by
  obtain ⟨site, hm, hw⟩ := List.mem_flatMap.mp h
  rw [sites_transform] at hm
  obtain ⟨d, -, rfl⟩ := List.mem_map.mp hm
  have hn := (Resolution.derives_resolveFrom _ [] d.value d.value).find?_eq_none hw
  rw [bindings_transform, bindings_pruned] at hn
  exact find?_bindings_eq_none_iff.mp hn

end Sheet

namespace Chunks

end Chunks

end CustomProperties
