import CustomProperties.Proofs.Chunks.Inert
import CustomProperties.Proofs.Chunks.Isolation
import CustomProperties.Proofs.Chunks.Marker

/-! # Chunks that are all transformed

If no chunk is inert, then the chunks are transformed as the text that they make up, but for the
chunks that are put back in the end: a comment of the sheet that reads like the marker of a chunk
is replaced too, or fails the run if its index has too many digits. A chunk that is not inert cannot
stand in a marker, so what is put back never restores the text by chance.
-/

namespace CustomProperties.Chunks

variable {o : Options} {chunks : List Text} {css t rest : Text} {i : Nat}

/-! ### Texts that stay as they are -/

theorem isInert_of_not_mem (hp : '(' ∉ css) (hc : ':' ∉ css) : isInert css = true := by
  refine isInert_iff.mpr ⟨Text.occurs_eq_false_iff.mpr fun h => hp (h.mem ?_), ?_⟩
  · decide
  · rintro ⟨x, y, rfl, -, -⟩
    exact hc (List.mem_append_right x (List.mem_append_left y (by decide)))

theorem exists_of_marker? (h : marker? t = some (i, rest)) :
    ∃ m, t = m ++ rest ∧ t.take (t.length - rest.length) = m ∧
      ∀ css, css <:+: m → isInert css = true := by
  obtain ⟨digits, -, hd, -, rfl⟩ := marker?_eq_some_iff.mp h
  have hm {c : Char} (hc : (Text.digit? c).isSome = false) (ho : c ∉ '/' :: core [])
      (hs : c ≠ '/') : c ∉ '/' :: (core digits ++ ['/']) := by
    have hn : c ∉ digits := fun hc' => by simp [hd c hc'] at hc
    simp_all [core]
  refine ⟨'/' :: (core digits ++ ['/']), by simp, ?_, fun css hi => ?_⟩
  · rw [← List.singleton_append (l := rest), ← List.append_assoc, ← List.cons_append,
      List.length_append, Nat.add_sub_cancel, List.take_left]
  · exact isInert_of_not_mem (fun hc => hm (by decide) (by decide) (by decide) (hi.mem hc))
      fun hc => hm (by decide) (by decide) (by decide) (hi.mem hc)

theorem prefix_of_append_eq {m u v : Text} (h : m ++ rest = u ++ v)
    (hr : ∀ x, rest = x ++ v → x = []) : u <+: m := by
  rcases List.append_eq_append_iff.mp h with ⟨x, hx, hy⟩ | ⟨x, hx, -⟩
  · rw [hr x hy, List.append_nil] at hx
    exact ⟨[], (List.append_nil u).trans hx⟩
  · exact ⟨x, hx.symm⟩

/-- Nothing that precedes what is restored of a text can make up for what is put back. -/
theorem eq_nil_of_append_restore (ha : ∀ css ∈ chunks, isInert css = false) (before : Text)
    (h : t = before ++ restore chunks t) :
    before = [] ∧ ∀ digits ∈ digitsIn t, chunks.length ≤ Text.valueOf digits := by
  -- a chunk longer than its marker shifts what follows it, so the shift is part of the induction
  induction t using digitsIn.induct generalizing before with
  | case1 t digits rest hd ih =>
    have hm := marker?_of_markerDigits? hd
    obtain ⟨m, ht, htake, hinert⟩ := exists_of_marker? hm
    rw [restore_of_marker? hm, htake, ht, ← List.append_assoc] at h
    have hp := prefix_of_append_eq h fun x hx => (ih x hx).1
    rw [digitsIn_of_markerDigits? hd]
    cases hi : chunks[Text.valueOf digits]? with
    | some css =>
      rw [hi, Option.getD_some] at hp
      have hcss := hinert css ((List.suffix_append before css).isInfix.trans hp.isInfix)
      rw [ha css (List.mem_of_getElem? hi)] at hcss
      contradiction
    | none =>
      rw [hi, Option.getD_none] at hp h
      obtain rfl : before = [] := by
        have hlen := hp.length_le
        rw [List.length_append] at hlen
        exact List.length_eq_zero_iff.mp (by omega)
      have hrest : rest = [] ++ restore chunks rest := List.append_cancel_left h
      exact ⟨rfl, List.forall_mem_cons.mpr ⟨List.getElem?_eq_none_iff.mp hi, (ih [] hrest).2⟩⟩
  | case2 =>
    rw [restore_nil, List.append_nil] at h
    exact ⟨h.symm, by rw [digitsIn_nil]; exact nofun⟩
  | case3 c t hd ih =>
    rw [restore_cons (marker?_eq_none_iff.mpr hd)] at h
    rw [digitsIn_cons hd]
    cases before with
    | nil => exact ⟨rfl, (ih [] (List.cons.inj h).2).2⟩
    | cons d before =>
      have ht : t = before ++ [c] ++ restore chunks t := by
        rw [List.append_assoc]
        exact (List.cons.inj h).2
      simpa using (ih _ ht).1

theorem restore_of_digitsIn (h : ∀ digits ∈ digitsIn t, chunks.length ≤ Text.valueOf digits) :
    restore chunks t = t := by
  induction t using digitsIn.induct with
  | case1 t digits rest hd ih =>
    have hm := marker?_of_markerDigits? hd
    obtain ⟨m, ht, htake, -⟩ := exists_of_marker? hm
    rw [digitsIn_of_markerDigits? hd, List.forall_mem_cons] at h
    rw [restore_of_marker? hm, htake, List.getElem?_eq_none h.1, ih h.2]
    exact ht.symm
  | case2 => exact restore_nil
  | case3 c t hd ih =>
    rw [digitsIn_cons hd] at h
    rw [restore_cons (marker?_eq_none_iff.mpr hd), ih h]

theorem restore_eq_self_iff (ha : ∀ css ∈ chunks, isInert css = false) :
    restore chunks t = t ↔ ∀ digits ∈ digitsIn t, chunks.length ≤ Text.valueOf digits :=
  ⟨fun h => (eq_nil_of_append_restore ha [] h.symm).2, restore_of_digitsIn⟩

/-! ### Runs without an inert chunk -/

theorem coalesce_of_active (ha : ∀ css ∈ chunks, isInert css = false) :
    coalesce chunks = chunks.flatten := by
  have hs : ∀ c ∈ chunks.zipIdx, standIn c.1 c.2 = c.1 := fun c hc => by
    rw [standIn, ha c.1 (List.fst_mem_of_mem_zipIdx hc)]
    rfl
  rw [coalesce, List.map_congr_left hs, List.zipIdx_map_fst]

/-- If no chunk is inert, then a run of chunks succeeds exactly if the text that they make up is
transformed into one whose markers have indices that are read, and it warns as that run does. Both
return the same text exactly if, besides, no marker in it belongs to a chunk. -/
theorem run_matches_transform (ha : ∀ css ∈ chunks, isInert css = false) (o : Options) :
    ((∃ out, (run o chunks).result = .ok out) ↔
      ∃ css, (transformLimited o chunks.flatten).result = .ok css ∧
        ∀ digits ∈ digitsIn css, digits.length ≤ Text.digitLimit) ∧
    ∀ css, (transformLimited o chunks.flatten).result = .ok css →
      (run o chunks).warnings = (transformLimited o chunks.flatten).warnings ∧
        ((run o chunks).result = .ok css ↔ ∀ digits ∈ digitsIn css,
          digits.length ≤ Text.digitLimit ∧ chunks.length ≤ Text.valueOf digits) := by
  have hok : ∀ css, (transformLimited o chunks.flatten).result = .ok css ↔
      ∃ s, Sheet.readLimited (coalesce chunks) = .ok s ∧ (s.transform o).sheet.text = css := by
    intro css
    rw [← coalesce_of_active ha]
    exact transformLimited_eq_ok_iff
  constructor
  · simp only [exists_run_iff, longIndex?_eq_none_iff, hok]
    simp
  · intro css h
    obtain ⟨s, hr, rfl⟩ := (hok css).mp h
    constructor
    · rw [run_warnings_of_read hr, coalesce_of_active ha]
    · rw [run_eq_ok_iff, longNumber?, hr, result_of_read (Sheet.readLimited_eq_ok_iff.mp hr).2]
      simp only [forall_and, ← longIndex?_eq_none_iff, ← restore_eq_self_iff ha, Except.ok.injEq]

/-- A comment that reads like the marker of a chunk beyond the last one stays as it is. -/
theorem run_matches_transform_beyond_last :
    let chunks : List Text :=
      [":root" ++ inBraces "--x:1px" ++ marker 2, "b" ++ inBraces "w:var(--x)"]
    let css : Text :=
      ":root" ++ inBraces "--x:1px" ++ marker 2 ++ "b" ++ inBraces "w:var(--x);w:1px"
    ((∀ css ∈ chunks, isInert css = false) ∧
      (transformLimited {} chunks.flatten).result = .ok css ∧ digitsIn css = ["2"]) ∧
    (run {} chunks).result = .ok css ∧
      (run {} chunks).warnings = (transformLimited {} chunks.flatten).warnings := by
  intro chunks css
  have ha : ∀ css ∈ chunks, isInert css = false := by decide +kernel
  have hr : (transformLimited {} chunks.flatten).result = .ok css := by decide +kernel
  have hd : digitsIn css = ["2"] := by decide +kernel
  obtain ⟨hw, hb⟩ := (run_matches_transform ha {}).2 css hr
  exact ⟨⟨ha, hr, hd⟩, hb.mpr (by rw [hd]; decide), hw⟩

/-- A comment that reads like the marker of its own chunk is replaced by the whole chunk. -/
theorem run_replaces_comment :
    let css : Text := ":root" ++ inBraces "--x:1px" ++ marker 0
    let chunks : List Text := [css]
    (∀ c ∈ chunks, isInert c = false) ∧
      (transformLimited {} chunks.flatten).result = .ok css ∧
      (run {} chunks).result = .ok (":root" ++ inBraces "--x:1px" ++ css) ∧
      (run {} chunks).result ≠ .ok css := by
  decide +kernel

end CustomProperties.Chunks
