import CustomProperties.Proofs.Chunks.Run
import CustomProperties.Proofs.Sheet.Concatenation
import CustomProperties.Proofs.Sheet.Reading
import CustomProperties.Proofs.Text.Strip

/-! # Which inert chunks survive

A comment between the rules of a sheet survives every stage of a run, so an inert chunk whose
marker is read as such a comment is put back, whatever the other chunks are. Inside a rule that a
chunk leaves open the comment may be dropped, and the inert chunk is lost with it.
-/

namespace CustomProperties

namespace Text

/-- The texts occur one after the other. -/
def OccurInOrder : List Text → Text → Prop
  | [], _ => True
  | t :: ts, u => ∃ before after, u = before ++ (t ++ after) ∧ OccurInOrder ts after

end Text

/-! ### What rules end in -/

namespace Rule

theorem getLast?_append_inBraces (t u : Text) : (t ++ inBraces u).getLast? ≠ some '*' := by
  rw [inBraces, ← List.append_assoc, List.getLast?_concat]
  decide

theorem getLast?_append_commentEnd (t : Text) : (t ++ "*/").getLast? ≠ some '*' := by
  have he : ("*/" : Text) = ['*'] ++ ['/'] := rfl
  rw [he, ← List.append_assoc, List.getLast?_concat]
  decide

theorem write_style (selectors : List Text) (body : Body) : write (.style selectors body) =
    if body.any Entry.isDeclaration then commaSeparated selectors ++ inBraces body.write else [] :=
  rfl

/-- Only a rule that is kept as it was written may end like an open comment. -/
theorem getLast?_write {r : Rule} (h : ∀ raw, r = .unknown raw → raw.getLast? ≠ some '*') :
    r.write.getLast? ≠ some '*' := by
  cases r with
  | style selectors body =>
    rw [write_style]
    split
    · exact getLast?_append_inBraces _ _
    · exact nofun
  | container keyword condition rules => exact getLast?_append_inBraces _ _
  | keyframes name vendor stages => exact getLast?_append_inBraces _ _
  | fontFace body => exact getLast?_append_inBraces _ _
  | keyframe selectors body => exact nofun
  | comment text => exact getLast?_append_commentEnd _
  | unknown raw => exact h raw rfl

theorem eq_unknown_of_prune {r : Rule} {raw : Text} (h : r.prune = some (.unknown raw)) :
    r = .unknown raw := by
  cases prune_eq_some_iff.mp h
  rfl

theorem eq_unknown_of_dropDefinitions {r : Rule} {raw : Text}
    (h : r.dropDefinitions = .unknown raw) : r = .unknown raw := by
  cases r with
  | style selectors body => rw [dropDefinitions] at h; split at h <;> contradiction
  | _ => exact h

theorem eq_unknown_of_mapBodies {f : Body → Body} {r : Rule} {raw : Text}
    (h : r.mapBodies f = .unknown raw) : r = .unknown raw := by
  cases r <;> simp_all [mapBodies]

end Rule

namespace Sheet

variable {o : Options} {s : Sheet} {raw : Text}

theorem getLast?_rawText (keyword : Text) (prelude : List Syntax.Node)
    (content : Option (List Syntax.Node)) :
    (rawText keyword prelude content).getLast? ≠ some '*' := by
  cases content with
  | none =>
    rw [rawText, Text.getLast?_strip_concat (by decide)]
    decide
  | some content =>
    rw [rawText, ← List.append_assoc, Text.getLast?_strip_concat (by decide)]
    decide

theorem getLast?_of_unknown_mem {whole : Bool} {ns : List Syntax.Node} {rs : List Rule}
    (h : ReadsRules whole ns rs) (hm : .unknown raw ∈ rs) : raw.getLast? ≠ some '*' := by
  induction h with
  | nil => contradiction
  | statement _ _ ih =>
    rcases List.mem_cons.mp hm with he | hm
    · cases he; exact getLast?_rawText _ _ _
    · exact ih hm
  | unknown _ _ _ ih =>
    rcases List.mem_cons.mp hm with he | hm
    · cases he; exact getLast?_rawText _ _ _
    · exact ih hm
  | _ => simp_all

theorem unknown_mem_of_transform (h : .unknown raw ∈ (s.transform o).sheet) : .unknown raw ∈ s := by
  have hd : .unknown raw ∈ s.visited o := by
    rw [transform_eq] at h
    obtain ⟨r, hr, he⟩ := List.mem_map.mp h
    exact Rule.eq_unknown_of_mapBodies he ▸ hr
  have hp : .unknown raw ∈ s.pruned o := by
    unfold visited afterCollection at hd
    split at hd
    · split at hd
      · exact hd
      · rcases List.mem_append.mp hd with hd | hd
        · exact hd
        · simp [overrideRule, Rule.root] at hd
    · obtain ⟨r, hr, he⟩ := List.mem_map.mp hd
      exact Rule.eq_unknown_of_dropDefinitions he ▸ hr
  unfold pruned at hp
  split at hp
  · obtain ⟨r, hr, he⟩ := List.mem_filterMap.mp hp
    exact Rule.eq_unknown_of_prune he ▸ hr
  · exact hp

theorem comments_sublist_transform {ts : List Text} (h : (ts.map Rule.comment).Sublist s) :
    (ts.map Rule.comment).Sublist (s.transform o).sheet := by
  have hk (f : Rule → Rule) (hf : ∀ t, f (.comment t) = .comment t) :
      (ts.map Rule.comment).map f = ts.map Rule.comment := by
    rw [List.map_map]
    exact List.map_congr_left fun t _ => hf t
  have hp : (ts.map Rule.comment).Sublist (s.pruned o) := by
    unfold pruned
    split
    · have hs := h.filterMap Rule.prune
      have hc : (ts.map Rule.comment).filterMap Rule.prune = ts.map Rule.comment := by
        rw [List.filterMap_map, ← List.filterMap_eq_map]
        exact List.filterMap_congr fun t _ => rfl
      rwa [hc] at hs
    · exact h
  have hv : (ts.map Rule.comment).Sublist (s.visited o) := by
    unfold visited afterCollection
    split
    · split
      · exact hp
      · exact hp.trans (List.sublist_append_left _ _)
    · have hs := hp.map Rule.dropDefinitions
      rwa [hk _ fun t => rfl] at hs
  rw [transform_eq]
  have hs := hv.map (Rule.mapBodies (Body.resolved o ((s.pruned o).bindings o.overrides)))
  rwa [hk _ fun t => rfl] at hs

end Sheet

namespace Chunks

open Text (OccurInOrder)

variable {chunks : List Text}

theorem restore_inOrder {skipped : List (Text × Nat)} {rs : List Rule} {t : Text}
    (hi : ∀ c ∈ skipped, chunks[c.2]? = some c.1)
    (hs : ((skipped.map fun c => label c.2).map Rule.comment).Sublist rs)
    (hr : ∀ r ∈ rs, r.write.getLast? ≠ some '*') (ht : t.getLast? ≠ some '*') :
    OccurInOrder (skipped.map Prod.fst) (restore chunks (t ++ rs.flatMap Rule.write)) := by
  induction rs generalizing skipped t with
  | nil =>
    rw [List.sublist_nil, List.map_map, List.map_eq_nil_iff] at hs
    rw [hs]
    trivial
  | cons r rs ih =>
    obtain ⟨hr, hrs⟩ := List.forall_mem_cons.mp hr
    rw [List.flatMap_cons]
    rcases List.sublist_cons_iff.mp hs with hs | ⟨rest, he, hs⟩
    · have ht' : (t ++ r.write).getLast? ≠ some '*' := by
        rw [List.getLast?_append]
        cases hw : r.write.getLast? with
        | none => exact ht
        | some c => rwa [hw] at hr
      rw [← List.append_assoc]
      exact ih hi hs hrs ht'
    · rw [List.map_map] at he
      obtain ⟨c, skipped', rfl, rfl, rfl⟩ := List.map_eq_cons_iff.mp he
      obtain ⟨hc, hi⟩ := List.forall_mem_cons.mp hi
      have hw : Rule.write (.comment (label c.2)) = marker c.2 := (marker_eq c.2).symm
      rw [Function.comp_apply, hw, restore_append_marker hc (not_endsInMarker_of_getLast? ht)]
      rw [← List.map_map] at hs
      exact ⟨_, _, rfl, by simpa using ih (t := []) hi hs hrs (by simp)⟩

def inert (chunks : List Text) : List (Text × Nat) := chunks.zipIdx.filter fun c => isInert c.1

/-- No inert chunk is lost whose marker is read as a comment between rules, and such chunks keep
their order, whatever becomes of other inert chunks. -/
theorem transformAll_keeps_inert {s : Sheet} {kept : List (Text × Nat)} (o : Options)
    (hr : Sheet.read (coalesce chunks) = .ok s) (hk : kept.Sublist (inert chunks))
    (hs : (kept.map fun c => Rule.comment (label c.2)).Sublist s) :
    ∃ out, (transformAll o chunks).result = .ok out ∧ OccurInOrder (kept.map Prod.fst) out := by
  have hm : (kept.map fun c => Rule.comment (label c.2)) =
      (kept.map fun c => label c.2).map Rule.comment := by
    rw [List.map_map]
    rfl
  have hi : ∀ c ∈ kept, chunks[c.2]? = some c.1 := fun c hc =>
    List.mem_zipIdx_iff_getElem?.mp (List.mem_of_mem_filter (hk.mem hc))
  have hw : ∀ r ∈ (s.transform o).sheet, r.write.getLast? ≠ some '*' := by
    intro r hmem
    refine Rule.getLast?_write fun raw he => ?_
    subst he
    exact Sheet.getLast?_of_unknown_mem (Sheet.readsRules_of_read hr)
      (Sheet.unknown_mem_of_transform hmem)
  refine ⟨restore chunks (s.transform o).sheet.text, result_of_read hr, ?_⟩
  rw [hm] at hs
  rw [Sheet.text, Rule.writeAll_eq]
  exact restore_inOrder (t := []) hi (Sheet.comments_sublist_transform hs) hw (by simp)

/-- Inert chunks in front of a rule, between rules and behind a rule are put back, though the last
chunk is inert too and stands in a rule that is left open. -/
theorem transformAll_keeps_inert_around_rules :
    let chunks : List Text := ["a" ++ inBraces " c : d ", ":root" ++ inBraces "--x:1px;c:d", "/**/",
      "b" ++ inBraces "w:var(--x)", "e" ++ inBraces [], "f\x7bw:var(--x);", "g" ++ inBraces "h:i"]
    let s : Sheet := [.comment (label 0),
      .root [.declaration ⟨"--x", "1px"⟩, .declaration ⟨"c", "d"⟩], .comment (label 2),
      .style ["b"] [.declaration ⟨"w", "var(--x)"⟩], .comment (label 4),
      .style ["f"] [.declaration ⟨"w", "var(--x)"⟩, .comment (label 6)]]
    let kept : List (Text × Nat) :=
      [("a" ++ inBraces " c : d ", 0), ("/**/", 2), ("e" ++ inBraces [], 4)]
    (Sheet.read (coalesce chunks) = .ok s ∧ kept.Sublist (inert chunks) ∧
      (kept.map fun c => Rule.comment (label c.2)).Sublist s) ∧
    ∃ out, (transformAll { preserve := false } chunks).result = .ok out ∧
      OccurInOrder ["a" ++ inBraces " c : d ", "/**/", "e" ++ inBraces []] out := by
  intro chunks s kept
  have hr : Sheet.read (coalesce chunks) = .ok s := by decide +kernel
  have hk : kept.Sublist (inert chunks) := by decide +kernel
  have hs : (kept.map fun c => Rule.comment (label c.2)).Sublist s := by decide +kernel
  exact ⟨⟨hr, hk, hs⟩, transformAll_keeps_inert { preserve := false } hr hk hs⟩

/-- The second chunk is inert and is lost, because the first one leaves a rule open. -/
theorem transformAll_loses_inert_in_open_rule :
    let chunks : List Text := [":root" ++ inBraces "--x:1px" ++ "a\x7bwidth:var(--x);",
      "b" ++ inBraces "color:red"]
    ∃ out, (transformAll {} chunks).result = .ok out ∧
      ¬OccurInOrder (chunks.filter isInert) out := by
  intro chunks
  have hr : (transformAll {} chunks).result =
      .ok (":root" ++ inBraces "--x:1px" ++ "a" ++ inBraces "width:var(--x);width:1px") := by
    decide +kernel
  have hf : chunks.filter isInert = ["b" ++ inBraces "color:red"] := by decide +kernel
  refine ⟨_, hr, ?_⟩
  rw [hf]
  rintro ⟨before, after, h, -⟩
  have ho := Text.occurs_iff.mpr ⟨before, after, (List.append_assoc ..).trans h.symm⟩
  exact absurd ho (by decide +kernel)

end Chunks

end CustomProperties
