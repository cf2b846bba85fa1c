import CustomProperties.Proofs.Chunks.Composition

/-! # Restoring joined chunks

Joined chunks are put back to the text that they make up, unless chunks that are not inert make up
a tag where they meet. An inert chunk may hold the text of a marker: it is put back for its own
marker, and what is put back is not read again.
-/

namespace CustomProperties.Chunks

variable {chunks : List Text}

/-- The pieces of the joined text: a marker for each inert chunk, and the other chunks. -/
def standIns (chunks : List Text) : List Piece :=
  chunks.zipIdx.map fun (css, i) => if isInert css then .skipped i css else .rendered css

theorem written_standIns (chunks : List Text) :
    (standIns chunks).flatMap Piece.written = coalesce chunks := by
  rw [standIns, coalesce, List.flatMap_map, List.flatMap_def]
  refine congrArg List.flatten (List.map_congr_left ?_)
  rintro ⟨css, i⟩ -
  dsimp only [standIn]
  split <;> rfl

theorem restored_standIns (chunks : List Text) :
    (standIns chunks).flatMap Piece.restored = chunks.flatten := by
  have hr : ∀ c ∈ chunks.zipIdx, (if isInert c.1 then Piece.skipped c.2 c.1
      else .rendered c.1).restored = c.1 := by
    rintro ⟨css, i⟩ -
    dsimp only
    split <;> rfl
  rw [standIns, List.flatMap_map, List.flatMap_def, List.map_congr_left hr, List.zipIdx_map_fst]

theorem getElem?_of_mem_standIns {i : Nat} {css : Text} (h : .skipped i css ∈ standIns chunks) :
    chunks[i]? = some css := by
  obtain ⟨⟨css', i'⟩, hm, he⟩ := List.mem_map.mp h
  dsimp only at he
  split at he
  next =>
    cases he
    exact List.mem_zipIdx_iff_getElem?.mp hm
  next => contradiction

/-- Putting the inert chunks back undoes the joining. -/
theorem restore_coalesce (h : ∀ run ∈ runs (standIns chunks), Text.occurs tag run = false) :
    restore chunks (coalesce chunks) = chunks.flatten := by
  have ht : ∀ run ∈ (runs (standIns chunks)).modifyHead ([] ++ ·), Text.occurs tag run = false := by
    rw [modifyHead_nil_append]
    exact h
  have hk := restore_written (fun _ _ => getElem?_of_mem_standIns) ht
  rwa [List.nil_append, List.nil_append, written_standIns, restored_standIns] at hk

/-- Inert chunks that read like markers, and a start of a marker in front of another one. -/
theorem restore_coalesce_around_markers :
    let chunks : List Text := ["/*__CSSVARS-CHUNK-1__*/", "b", "c:var(--x)/*__CSSVARS", "d",
      "/*__CSSVARS-CHUNK-2__*/"]
    (∀ run ∈ runs (standIns chunks), Text.occurs tag run = false) ∧
      restore chunks (coalesce chunks) = chunks.flatten := by
  intro chunks
  have h : ∀ run ∈ runs (standIns chunks), Text.occurs tag run = false := by decide +kernel
  exact ⟨h, restore_coalesce h⟩

end CustomProperties.Chunks
