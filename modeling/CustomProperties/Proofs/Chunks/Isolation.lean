import CustomProperties.Proofs.Chunks.Run
import CustomProperties.Proofs.Sheet.SpelledRules
import CustomProperties.Proofs.Transform.Failure

/-! # Isolating failures

Chunks can be transformed exactly when their joined text can be read and no marker in what is
written has an index of too many digits. If the joined text cannot be read, the chunks at fault are
those that cannot be read on their own. Options take no part in that, since reading is the only
other step of a run that fails. That a handler returns from every warning is assumed: it is the
caller's, and a run has no step for it.
-/

namespace CustomProperties.Chunks

variable {o : Options} {chunks : List Text} {css : Text} {i : Nat} {e : ParseError}

/-! ### Chunks at fault -/

/-- The chunk with this index is not inert, and this is the error of reading it on its own. -/
def FailsAlone (chunks : List Text) (i : Nat) (e : ParseError) : Prop :=
  ∃ css, chunks[i]? = some css ∧ isInert css = false ∧ Sheet.readLimited css = .error (.reported e)

theorem mem_active : (i, css) ∈ active chunks ↔ chunks[i]? = some css ∧ isInert css = false := by
  simp [active, List.mem_zipIdx_iff_getElem?]

theorem active_pairwise (chunks : List Text) : (active chunks).Pairwise fun c d => c.1 < d.1 := by
  have hz : (chunks.zipIdx.map Prod.snd).Pairwise (· < ·) := by
    rw [List.zipIdx_map_snd]
    exact List.pairwise_lt_range'
  exact List.pairwise_map.mpr ((List.pairwise_map.mp hz).filter _)

def failure? : Nat × Text → Option (Nat × ParseError)
  | (i, css) =>
    match Sheet.read css with
    | .ok _ => none
    | .error e => some (i, e)

theorem failures_eq (o : Options) (chunks : List Text) :
    failures o chunks = (active chunks).filterMap failure? := by
  refine List.filterMap_congr fun c _ => ?_
  obtain ⟨i, css⟩ := c
  dsimp only [failure?]
  rw [transform]
  cases Sheet.read css <;> rfl

theorem failure?_eq_some_iff {c : Nat × Text} :
    failure? c = some (i, e) ↔ c.1 = i ∧ Sheet.read c.2 = .error e := by
  obtain ⟨j, css⟩ := c
  dsimp only [failure?]
  cases Sheet.read css <;> simp

theorem mem_failures : (i, e) ∈ failures o chunks ↔
    ∃ css, (i, css) ∈ active chunks ∧ Sheet.read css = .error e := by
  rw [failures_eq, List.mem_filterMap]
  constructor
  · rintro ⟨⟨j, css⟩, hm, hf⟩
    obtain ⟨rfl, hr⟩ := failure?_eq_some_iff.mp hf
    exact ⟨css, hm, hr⟩
  · rintro ⟨css, hm, hr⟩
    exact ⟨(i, css), hm, failure?_eq_some_iff.mpr ⟨rfl, hr⟩⟩

theorem mem_failures_iff_failsAlone (ha : longAlone? chunks = none) :
    (i, e) ∈ failures o chunks ↔ FailsAlone chunks i e := by
  have hl : ∀ c ∈ active chunks, Sheet.longNumber? c.2 = none := List.findSome?_eq_none_iff.mp ha
  rw [mem_failures]
  constructor
  · rintro ⟨css, hm, hr⟩
    obtain ⟨hg, hi⟩ := mem_active.mp hm
    exact ⟨css, hg, hi, Sheet.readLimited_eq_reported_iff.mpr ⟨hl _ hm, hr⟩⟩
  · rintro ⟨css, hg, hi, hr⟩
    exact ⟨css, mem_active.mpr ⟨hg, hi⟩, (Sheet.readLimited_eq_reported_iff.mp hr).2⟩

theorem failures_pairwise (o : Options) (chunks : List Text) :
    (failures o chunks).Pairwise fun f g => f.1 < g.1 := by
  rw [failures_eq, List.pairwise_filterMap]
  refine (active_pairwise chunks).imp fun hlt => ?_
  rintro ⟨i, e⟩ hi ⟨j, e'⟩ hj
  obtain ⟨rfl, -⟩ := failure?_eq_some_iff.mp hi
  obtain ⟨rfl, -⟩ := failure?_eq_some_iff.mp hj
  exact hlt

theorem failures_isEmpty_iff (ha : longAlone? chunks = none) :
    (failures o chunks).isEmpty = true ↔ ¬∃ i e, FailsAlone chunks i e := by
  rw [List.isEmpty_iff, List.eq_nil_iff_forall_not_mem]
  constructor
  · rintro h ⟨i, e, hf⟩
    exact h (i, e) ((mem_failures_iff_failsAlone ha).mpr hf)
  · rintro h ⟨i, e⟩ hm
    exact h ⟨i, e, (mem_failures_iff_failsAlone ha).mp hm⟩

/-! ### What a run ends with -/

theorem exists_run_iff :
    (∃ out, (run o chunks).result = .ok out) ↔
      ∃ s, Sheet.readLimited (coalesce chunks) = .ok s ∧
        longIndex? (s.transform o).sheet.text = none := by
  simp only [run_eq_ok_iff, longNumber?]
  cases hr : Sheet.readLimited (coalesce chunks) with
  | ok s => simp [result_of_read (Sheet.readLimited_eq_ok_iff.mp hr).2]
  | error u =>
    cases u with
    | number number => simp
    | reported e => simp [result_of_not_read (Sheet.readLimited_eq_reported_iff.mp hr).2]

theorem run_of_reported (hr : Sheet.readLimited (coalesce chunks) = .error (.reported e))
    (ha : longAlone? chunks = none) :
    (run o chunks).result = .error (.reported (reported o chunks e)) := by
  refine run_eq_reported_iff.mpr ⟨?_, result_of_not_read (Sheet.readLimited_eq_reported_iff.mp hr).2⟩
  rw [longNumber?, hr]
  exact ha

theorem run_eq_reported {err : Error} (h : (run o chunks).result = .error (.reported err)) :
    ∃ e, Sheet.readLimited (coalesce chunks) = .error (.reported e) ∧ longAlone? chunks = none ∧
      err = reported o chunks e := by
  obtain ⟨hl, hall⟩ := run_eq_reported_iff.mp h
  rw [longNumber?] at hl
  cases hr : Sheet.readLimited (coalesce chunks) with
  | ok s => rw [result_of_read (Sheet.readLimited_eq_ok_iff.mp hr).2] at hall; contradiction
  | error u =>
    rw [hr] at hl
    cases u with
    | number number => contradiction
    | reported e =>
      rw [result_of_not_read (Sheet.readLimited_eq_reported_iff.mp hr).2] at hall
      exact ⟨e, rfl, hl, (Except.error.inj hall).symm⟩

theorem reported_congr (o o' : Options) (chunks : List Text) (e : ParseError) :
    reported o chunks e = reported o' chunks e := by
  rw [reported, reported, failures_eq, failures_eq]

theorem run_reported_congr (o o' : Options) (chunks : List Text) {err : Error}
    (h : (run o chunks).result = .error (.reported err)) :
    (run o' chunks).result = .error (.reported err) := by
  obtain ⟨e, hr, ha, rfl⟩ := run_eq_reported h
  rw [run_of_reported hr ha, reported_congr o' o]

/-! ### Runs whose steps may fail -/

/-- Why a run of chunks breaks off: it fails as `run` does, or another one of its steps fails. -/
inductive BatchError
  | failure (failure : Failure)
  | other (error : RunError)

/-- Transform a text, where every step may fail. Only an error of the sheet is caught. -/
def attempt (o : Options) (css : Text) : Except BatchError (Except ParseError Text) :=
  match Sheet.longNumber? css with
  | some number => .error (.failure (.number number))
  | none =>
    match tryTransform o css with
    | .ok out => .ok (.ok out)
    | .error (.parse e) => .ok (.error e)
    | .error err => .error (.other err)

theorem attempt_eq (o : Options) (css : Text) : attempt o css =
    (Sheet.longNumber? css).elim (.ok (transform o css).result) fun number =>
      .error (.failure (.number number)) := by
  rw [attempt, tryTransform_eq]
  cases Sheet.longNumber? css with
  | some number => rfl
  | none => cases (transform o css).result <;> rfl

def tryFailures (o : Options) : List (Nat × Text) → Except BatchError (List (Nat × ParseError))
  | [] => .ok []
  | (i, css) :: rest => do
    match ← attempt o css with
    | .ok _ => tryFailures o rest
    | .error e => return (i, e) :: (← tryFailures o rest)

theorem tryFailures_eq (o : Options) (cs : List (Nat × Text)) : tryFailures o cs =
    (cs.findSome? fun c => Sheet.longNumber? c.2).elim (.ok (cs.filterMap failure?)) fun number =>
      .error (.failure (.number number)) := by
  induction cs with
  | nil => rfl
  | cons c cs ih =>
    obtain ⟨i, css⟩ := c
    rw [tryFailures, ih, attempt_eq, List.findSome?_cons]
    cases Sheet.longNumber? css with
    | some number => rfl
    | none =>
      rw [List.filterMap_cons, failure?, transform]
      cases Sheet.read css <;>
        cases cs.findSome? fun c => Sheet.longNumber? c.2 <;> rfl

def tryTransformAll (o : Options) (chunks : List Text) : Except BatchError Text := do
  match ← attempt o (coalesce chunks) with
  | .ok css => (tryRestore chunks css).mapError fun number => .failure (.number number)
  | .error e =>
    let found ← tryFailures o (active chunks)
    throw (.failure (.reported (if found.isEmpty then .joined e else .chunks found)))

theorem tryTransformAll_eq (o : Options) (chunks : List Text) :
    tryTransformAll o chunks = (run o chunks).result.mapError .failure := by
  rw [tryTransformAll, attempt_eq, tryFailures_eq, ← failures_eq o, run, transformLimited, transform]
  cases Sheet.longNumber? (coalesce chunks) with
  | some number => rfl
  | none =>
    cases Sheet.read (coalesce chunks) with
    | ok s =>
      change (tryRestore chunks _).mapError _ = ((tryRestore chunks _).mapError _).mapError _
      cases tryRestore chunks (s.transform o).sheet.text <;> rfl
    | error e =>
      change _ = Except.error (BatchError.failure ((longAlone? chunks).elim _ _))
      rw [longAlone?]
      cases (active chunks).findSome? fun c => Sheet.longNumber? c.2 <;> rfl

/-- A run of chunks returns exactly if their joined text is read and so are the indices of all
markers in what is written. If a number breaks it off, it is one of the joined text, of a marker or
of a chunk that is tried on its own. Otherwise the joined text is at fault, and the run names the
chunks that cannot be read on their own, in their order, or it reports the joined text if there are
none; the options decide none of this. -/
theorem run_isolates_failures (o : Options) (chunks : List Text) :
    tryTransformAll o chunks = (run o chunks).result.mapError .failure ∧
      ((∃ out, (run o chunks).result = .ok out) ↔
        ∃ s, Sheet.readLimited (coalesce chunks) = .ok s ∧
          ∀ digits ∈ digitsIn (s.transform o).sheet.text, digits.length ≤ Text.digitLimit) ∧
      (∀ number, (run o chunks).result = .error (.number number) ↔
        longNumber? o chunks = some number) ∧
      (∀ e, Sheet.readLimited (coalesce chunks) = .error (.reported e) →
        longAlone? chunks = none →
          ((∃ i e, FailsAlone chunks i e) →
            ∃ fs, (run o chunks).result = .error (.reported (.chunks fs)) ∧
              fs.Pairwise (fun f g => f.1 < g.1) ∧ ∀ i e, (i, e) ∈ fs ↔ FailsAlone chunks i e) ∧
          ((¬∃ i e, FailsAlone chunks i e) →
            (run o chunks).result = .error (.reported (.joined e)))) ∧
      (∀ fs, (run o chunks).result = .error (.reported (.chunks fs)) →
        ∀ f ∈ fs, ∃ css, chunks[f.1]? = some css ∧ isInert css = false) ∧
      ∀ o' err, (run o chunks).result = .error (.reported err) ↔
        (run o' chunks).result = .error (.reported err) := by
  refine ⟨tryTransformAll_eq o chunks, ?_, fun number => run_eq_number_iff, ?_, ?_, ?_⟩
  · simp only [exists_run_iff, longIndex?_eq_none_iff]
  · intro e hr ha
    constructor
    · intro hf
      have hn : ¬(failures o chunks).isEmpty = true := fun h => (failures_isEmpty_iff ha).mp h hf
      refine ⟨failures o chunks, ?_, failures_pairwise o chunks, fun i e =>
        mem_failures_iff_failsAlone ha⟩
      rw [run_of_reported hr ha, reported, if_neg hn]
    · intro hf
      rw [run_of_reported hr ha, reported, if_pos ((failures_isEmpty_iff ha).mpr hf)]
  · rintro fs h ⟨i, e⟩ hm
    obtain ⟨e', -, ha, he⟩ := run_eq_reported h
    have hfs : fs = failures o chunks := by
      rw [reported] at he
      split at he
      · contradiction
      · exact Error.chunks.inj he
    rw [hfs] at hm
    obtain ⟨css, hg, hi, -⟩ := (mem_failures_iff_failsAlone ha).mp hm
    exact ⟨css, hg, hi⟩
  · intro o' err
    exact ⟨run_reported_congr o o' chunks, run_reported_congr o' o chunks⟩

/-- Two chunks at fault next to an inert one that cannot be read either, and two chunks that only
cannot be joined. -/
theorem run_isolates_failures_of_pieces :
    let apart : List Text :=
      ["c", "d var(", "e" ++ inBraces "f:g", "a" ++ inBraces "b:var(--x)", "h:root--"]
    let nested : List Text := ["a\x7bb:var(--x);", "c" ++ inBraces "d:var(--y)"]
    let reason : Text := "EOF reached before \x7b\x7d block for a qualified rule."
    let e : ParseError := ⟨reason, some 1, some 26, (coalesce apart).take 55⟩
    let e₁ : ParseError := ⟨reason, some 1, some 3, "d var("⟩
    let e₄ : ParseError := ⟨reason, some 1, some 3, "h:root--"⟩
    let eₙ : ParseError := ⟨"nested rules inside a declaration block are not supported",
      some 1, some 14, coalesce nested⟩
    ((Sheet.readLimited (coalesce apart) = .error (.reported e) ∧ longAlone? apart = none ∧
        FailsAlone apart 1 e₁ ∧ FailsAlone apart 4 e₄) ∧
      Sheet.readLimited (coalesce nested) = .error (.reported eₙ) ∧ longAlone? nested = none ∧
        ¬∃ i e, FailsAlone nested i e) ∧
    (∃ fs, (run {} apart).result = .error (.reported (.chunks fs)) ∧ (1, e₁) ∈ fs ∧ (4, e₄) ∈ fs ∧
      ∀ f ∈ fs, ∃ css, apart[f.1]? = some css ∧ isInert css = false) ∧
    (run {} nested).result = .error (.reported (.joined eₙ)) := by
  intro apart nested reason e e₁ e₄ eₙ
  have he : Sheet.readLimited (coalesce apart) = .error (.reported e) := by decide +kernel
  have ha : longAlone? apart = none := by decide +kernel
  have h₁ : FailsAlone apart 1 e₁ := ⟨_, rfl, by decide +kernel, by decide +kernel⟩
  have h₄ : FailsAlone apart 4 e₄ := ⟨_, rfl, by decide +kernel, by decide +kernel⟩
  have heₙ : Sheet.readLimited (coalesce nested) = .error (.reported eₙ) := by decide +kernel
  have haₙ : longAlone? nested = none := by decide +kernel
  have hn : ¬∃ i e, FailsAlone nested i e :=
    (failures_isEmpty_iff (o := {}) haₙ).mp (by decide +kernel)
  obtain ⟨-, -, -, hc, hi, -⟩ := run_isolates_failures {} apart
  obtain ⟨fs, hr, -, hm⟩ := (hc e he ha).1 ⟨1, e₁, h₁⟩
  exact ⟨⟨⟨he, ha, h₁, h₄⟩, heₙ, haₙ, hn⟩,
    ⟨fs, hr, (hm 1 e₁).mpr h₁, (hm 4 e₄).mpr h₄, hi fs hr⟩,
    ((run_isolates_failures {} nested).2.2.2.1 eₙ heₙ haₙ).2 hn⟩

/-! ### Comments that read like markers -/

/-- A comment that reads like a marker with the given digits, in a chunk that is not inert. -/
def imitation (digits : Text) : Text := "/*" ++ (tag ++ digits ++ "__") ++ "*/" ++ "/*var(*/"

section

variable {digits : Text}

theorem spellsComment_imitation (hd : ∀ c ∈ digits, (Text.digit? c).isSome = true) :
    Sheet.SpellsComment (tag ++ digits ++ "__") := by
  have hn {c : Char} (hc : (Text.digit? c).isSome = false) (ho : c ∉ tag ++ "__") :
      c ∉ tag ++ digits ++ "__" := by
    have hc' : c ∉ digits := fun hm => by simp [hd c hm] at hc
    simp_all
  constructor
  · intro c hc
    refine ⟨?_, ?_, ?_⟩ <;> rintro rfl <;> exact hn (by decide) (by decide) hc
  · refine Text.occurs_eq_false_iff.mpr fun ho => ?_
    exact hn (by decide) (by decide) (ho.mem (List.mem_cons_of_mem '*' (List.mem_singleton_self '/')))

theorem readLimited_imitation (hd : ∀ c ∈ digits, (Text.digit? c).isSome = true) :
    Sheet.readLimited (imitation digits) =
      .ok [.comment (tag ++ digits ++ "__"), .comment "var("] := by
  have hs : ∀ t ∈ ([tag ++ digits ++ "__", "var("] : List Text), Sheet.SpellsComment t :=
    List.forall_mem_cons.mpr ⟨spellsComment_imitation hd,
      List.forall_mem_singleton.mpr ⟨by decide, by decide⟩⟩
  exact Sheet.readLimited_commentsText hs

theorem markerDigits?_imitation (hn : digits ≠ [])
    (hd : ∀ c ∈ digits, (Text.digit? c).isSome = true) :
    markerDigits? (imitation digits) = some (digits, ("/*var(*/" : Text)) := by
  refine markerDigits?_eq_some_iff.mpr ⟨hn, hd, ?_⟩
  simp only [imitation, core, List.append_assoc]
  rfl

theorem coalesce_imitation (digits : Text) : coalesce [imitation digits] = imitation digits := by
  have ho : Reference.occursIn (imitation digits) = true :=
    Text.occurs_iff.mpr ⟨"/*" ++ (tag ++ digits ++ "__") ++ "*/" ++ "/*", "*/",
      by simp only [imitation, List.append_assoc]; rfl⟩
  simp [coalesce, standIn, isInert, ho]

theorem run_imitation (hd : ∀ c ∈ digits, (Text.digit? c).isSome = true)
    (hl : Text.digitLimit < digits.length) :
    (∃ s, Sheet.readLimited (coalesce [imitation digits]) = .ok s) ∧
      (run {} [imitation digits]).result = .error (.number ⟨digits.length⟩) := by
  have hn : digits ≠ [] := List.ne_nil_of_length_pos (Nat.zero_lt_of_lt hl)
  have hr := readLimited_imitation hd
  rw [← coalesce_imitation] at hr
  refine ⟨⟨_, hr⟩, run_eq_number_iff.mpr ?_⟩
  have ht : (Sheet.transform {} [.comment (tag ++ digits ++ "__"), .comment "var("]).sheet.text =
      imitation digits := rfl
  rw [longNumber?, hr]
  dsimp only
  rw [ht, longIndex?, digitsIn_of_markerDigits? (markerDigits?_imitation hn hd)]
  simp [hl]

end

/-- One digit too many. -/
theorem run_fails_on_imitation :
    let css := imitation (List.replicate 4301 '1')
    (∃ s, Sheet.readLimited (coalesce [css]) = .ok s) ∧ ¬∃ out, (run {} [css]).result = .ok out := by
  intro css
  have hd : ∀ c ∈ List.replicate 4301 '1', (Text.digit? c).isSome = true := by
    intro c hc
    rw [List.eq_of_mem_replicate hc]
    decide
  obtain ⟨hs, hr⟩ := run_imitation hd (by rw [List.length_replicate]; decide)
  refine ⟨hs, ?_⟩
  rintro ⟨out, ho⟩
  rw [hr] at ho
  cases ho

end CustomProperties.Chunks
