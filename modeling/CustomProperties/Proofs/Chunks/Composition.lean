import CustomProperties.Proofs.Chunks.Run
import CustomProperties.Proofs.Transform.Modes
import CustomProperties.Proofs.Transform.Rendering

/-! # Chunks compose

If every chunk contributes the rules that it has on its own, then a run renders each chunk on its
own too, under the bindings of all of them, and leaves the comments that stand for inert chunks.
The chunks are put back for these comments and for nothing else, unless what is rendered between
two of them holds the tag of a marker.
-/

namespace CustomProperties

namespace Chunks

/-- The rules that stand for a chunk in the joined text: the comment of its marker if it is inert,
else its own. -/
def rulesOf (css : Text) (index : Nat) : Except ParseError Sheet :=
  if isInert css then .ok [.comment (label index)] else Sheet.read css

/-- What stands for a chunk in the text of a run. -/
inductive Piece
  | skipped (index : Nat) (css : Text)
  | rendered (text : Text)
  deriving DecidableEq, Repr

namespace Piece

def ofChunk (render : Sheet → Text) (css : Text) (index : Nat) (s : Sheet) : Piece :=
  if isInert css then skipped index css else rendered (render s)

def written : Piece → Text
  | skipped index _ => marker index
  | rendered text => text

def restored : Piece → Text
  | skipped _ css => css
  | rendered text => text

end Piece

/-- The texts of the maximal runs of rendered pieces, empty ones included. -/
def runs : List Piece → List Text
  | [] => [[]]
  | .skipped _ _ :: ps => [] :: runs ps
  | .rendered text :: ps => (runs ps).modifyHead (text ++ ·)

variable {chunks : List Text}

theorem modifyHead_nil_append (ts : List Text) : ts.modifyHead ([] ++ ·) = ts := by
  cases ts <;> rfl

/-- Between markers nothing is put back, and behind `t` a run goes on. -/
theorem restore_written {ps : List Piece} {t : Text}
    (hp : ∀ i css, .skipped i css ∈ ps → chunks[i]? = some css)
    (ht : ∀ run ∈ (runs ps).modifyHead (t ++ ·), Text.occurs tag run = false) :
    restore chunks (t ++ ps.flatMap Piece.written) = t ++ ps.flatMap Piece.restored := by
  induction ps generalizing t with
  | nil =>
    have hr := ht (t ++ []) List.mem_cons_self
    rw [List.flatMap_nil, List.flatMap_nil, restore_of_not_occurs hr]
  | cons p ps ih =>
    have hp' : ∀ i css, .skipped i css ∈ ps → chunks[i]? = some css :=
      fun i css hm => hp i css (List.mem_cons_of_mem _ hm)
    cases p with
    | skipped i css =>
      rw [runs, List.modifyHead_cons, List.forall_mem_cons, List.append_nil] at ht
      have hs := ih (t := []) hp' (by rw [modifyHead_nil_append]; exact ht.2)
      rw [List.flatMap_cons, List.flatMap_cons, Piece.written, Piece.restored,
        restore_append_marker (hp i css List.mem_cons_self) (not_endsInMarker_of_not_occurs ht.1),
        restore_of_not_occurs ht.1]
      exact congrArg (fun u => t ++ (css ++ u)) hs
    | rendered text =>
      have hs := ih (t := t ++ text) hp' (by
        simpa [runs, List.modifyHead_modifyHead, Function.comp_def] using ht)
      rw [List.flatMap_cons, List.flatMap_cons, Piece.written, Piece.restored, ← List.append_assoc,
        ← List.append_assoc]
      exact hs

def pieces (render : Sheet → Text) (chunks : List Text) (sheets : List Sheet) : List Piece :=
  (chunks.zipIdx.zip sheets).map fun p => .ofChunk render p.1.1 p.1.2 p.2

theorem getElem?_of_mem_pieces {render : Sheet → Text} {sheets : List Sheet} {i : Nat} {css : Text}
    (h : .skipped i css ∈ pieces render chunks sheets) : chunks[i]? = some css := by
  obtain ⟨⟨⟨css', i'⟩, s⟩, hm, he⟩ := List.mem_map.mp h
  unfold Piece.ofChunk at he
  split at he
  next =>
    cases he
    exact List.mem_zipIdx_iff_getElem?.mp (List.of_mem_zip hm).1
  next => contradiction

theorem written_pieces {o : Options} {b : Bindings} {cs : List (Text × Nat)} {sheets : List Sheet}
    (h : List.Forall₂ (fun c s => rulesOf c.1 c.2 = .ok s) cs sheets) :
    ((cs.zip sheets).map fun p => Piece.ofChunk (Sheet.rendering o b) p.1.1 p.1.2 p.2).flatMap
      Piece.written = sheets.flatMap (Sheet.rendering o b) := by
  induction h with
  | nil => rfl
  | @cons c s cs sheets hc _ ih =>
    have hw : (Piece.ofChunk (Sheet.rendering o b) c.1 c.2 s).written = s.rendering o b := by
      unfold rulesOf at hc
      unfold Piece.ofChunk
      split at hc
      next hi =>
        cases hc
        rw [if_pos hi, Sheet.rendering_comment]
        exact marker_eq c.2
      next hi => rw [if_neg hi, Piece.written]
    rw [List.zip_cons_cons, List.map_cons, List.flatMap_cons, List.flatMap_cons, hw, ih]

/-- Chunks that contribute the rules they have on their own are rendered on their own, under the
bindings of all of them, and inert ones are put back in their places. -/
theorem transformAll_composes {o : Options} {b : Bindings} {sheets : List Sheet}
    (hs : List.Forall₂ (fun c s => rulesOf c.1 c.2 = .ok s) chunks.zipIdx sheets)
    (hr : Sheet.read (coalesce chunks) = .ok sheets.flatten)
    (hb : (Sheet.collect sheets.flatten o.overrides o.preserve).bindings = b)
    (ht : ∀ run ∈ runs (pieces (Sheet.rendering o b) chunks sheets ++
      [.rendered (Sheet.overrideRendering o b)]), Text.occurs tag run = false) :
    (transformAll o chunks).result =
      .ok ((pieces (Sheet.rendering o b) chunks sheets).flatMap Piece.restored ++
        Sheet.overrideRendering o b) := by
  rw [Sheet.collect_eq] at hb
  dsimp only at hb
  have hw : (Sheet.transform o sheets.flatten).sheet.text =
      (pieces (Sheet.rendering o b) chunks sheets ++
        [Piece.rendered (Sheet.overrideRendering o b)]).flatMap Piece.written := by
    rw [Sheet.text_transform, hb, Sheet.rendering_flatten, ← written_pieces hs, List.flatMap_append,
      List.flatMap_singleton]
    rfl
  have hp : ∀ i css, Piece.skipped i css ∈ pieces (Sheet.rendering o b) chunks sheets ++
      [Piece.rendered (Sheet.overrideRendering o b)] → chunks[i]? = some css := by
    intro i css hm
    rcases List.mem_append.mp hm with hm | hm
    · exact getElem?_of_mem_pieces hm
    · simp at hm
  have hk := restore_written (t := []) hp (by rw [modifyHead_nil_append]; exact ht)
  rw [List.nil_append, List.nil_append, ← hw, List.flatMap_append, List.flatMap_singleton] at hk
  exact (result_of_read hr).trans (congrArg Except.ok hk)

/-- Inert chunks at both ends, a definition in one chunk for a reference in another, and an
override. -/
theorem transformAll_composes_around_definitions :
    let o : Options := { overrides := .ofList [("y", "2px")] }
    let chunks : List Text := ["a" ++ inBraces " c : d ", ":root" ++ inBraces "--x:1px;c:d",
      "b" ++ inBraces "w:var(--x) var(--y)", "e" ++ inBraces []]
    let sheets : List Sheet := [[.comment (label 0)],
      [.root [.declaration ⟨"--x", "1px"⟩, .declaration ⟨"c", "d"⟩]],
      [.style ["b"] [.declaration ⟨"w", "var(--x) var(--y)"⟩]], [.comment (label 3)]]
    let b : Bindings := .ofList [("--x", "1px"), ("--y", "2px")]
    (List.Forall₂ (fun c s => rulesOf c.1 c.2 = .ok s) chunks.zipIdx sheets ∧
      Sheet.read (coalesce chunks) = .ok sheets.flatten ∧
      (Sheet.collect sheets.flatten o.overrides o.preserve).bindings = b ∧
      ∀ run ∈ runs (pieces (Sheet.rendering o b) chunks sheets ++
        [.rendered (Sheet.overrideRendering o b)]), Text.occurs tag run = false) ∧
    (transformAll o chunks).result = .ok ("a" ++ inBraces " c : d " ++
      (":root" ++ inBraces "--x:1px") ++ ("b" ++ inBraces "w:var(--x) var(--y);w:1px 2px") ++
      ("e" ++ inBraces []) ++ (":root" ++ inBraces "--y:2px")) := by
  intro o chunks sheets b
  have hs : List.Forall₂ (fun c s => rulesOf c.1 c.2 = .ok s) chunks.zipIdx sheets := by
    refine .cons ?_ (.cons ?_ (.cons ?_ (.cons ?_ .nil))) <;> decide +kernel
  have hr : Sheet.read (coalesce chunks) = .ok sheets.flatten := by decide +kernel
  have hb : (Sheet.collect sheets.flatten o.overrides o.preserve).bindings = b := by
    decide +kernel
  have ht : ∀ run ∈ runs (pieces (Sheet.rendering o b) chunks sheets ++
      [.rendered (Sheet.overrideRendering o b)]), Text.occurs tag run = false := by
    decide +kernel
  refine ⟨⟨hs, hr, hb, ht⟩, (transformAll_composes hs hr hb ht).trans ?_⟩
  decide +kernel

end Chunks

end CustomProperties
