import CustomProperties.Chunks.Transform
import CustomProperties.Proofs.Chunks.Marker
import CustomProperties.Proofs.Transform.Run
import Mathlib.Data.List.Infix

/-! # Runs of chunks

A run of chunks transforms their joined text, or else reports which of them are at fault. If a
number breaks it off, then what has happened by then is how the run without a limit begins;
otherwise the two runs are the same. So what holds of every text and every warning of the run
without a limit holds of those of a run.
-/

namespace CustomProperties.Chunks

variable {o : Options} {chunks : List Text} {css out : Text} {e : ParseError} {s : Sheet}
  {number : Text.LongNumber}

/-! ### Runs without a limit -/

theorem result_of_read (h : Sheet.read (coalesce chunks) = .ok s) :
    (transformAll o chunks).result = .ok (restore chunks (s.transform o).sheet.text) := by
  rw [transformAll, transform, h]

theorem result_of_not_read (h : Sheet.read (coalesce chunks) = .error e) :
    (transformAll o chunks).result = .error (reported o chunks e) := by
  rw [transformAll, transform, h]

/-- The number that breaks a run off: an integer of the joined text, the index of a marker in what
is written, or an integer of a chunk that is tried on its own. -/
def longNumber? (o : Options) (chunks : List Text) : Option Text.LongNumber :=
  match Sheet.readLimited (coalesce chunks) with
  | .ok s => longIndex? (s.transform o).sheet.text
  | .error (.number number) => some number
  | .error (.reported _) => longAlone? chunks

/-- A run is the one without a limit unless a number breaks it off. -/
theorem run_result (o : Options) (chunks : List Text) :
    (run o chunks).result = (longNumber? o chunks).elim
      ((transformAll o chunks).result.mapError .reported) fun number => .error (.number number) := by
  rw [longNumber?, Sheet.readLimited, run, transformLimited, transformAll, transform]
  cases Sheet.longNumber? (coalesce chunks) with
  | some number => rfl
  | none =>
    cases Sheet.read (coalesce chunks) with
    | ok s =>
      change (tryRestore chunks (s.transform o).sheet.text).mapError Failure.number =
        (longIndex? (s.transform o).sheet.text).elim _ _
      rw [tryRestore_eq]
      cases longIndex? (s.transform o).sheet.text <;> rfl
    | error e =>
      change Except.error ((longAlone? chunks).elim _ _) = (longAlone? chunks).elim _ _
      cases longAlone? chunks <;> rfl

theorem run_eq_ok_iff : (run o chunks).result = .ok out ↔
    longNumber? o chunks = none ∧ (transformAll o chunks).result = .ok out := by
  rw [run_result]
  cases longNumber? o chunks with
  | some number => simp
  | none => cases (transformAll o chunks).result <;> simp [Except.mapError]

theorem run_eq_number_iff :
    (run o chunks).result = .error (.number number) ↔ longNumber? o chunks = some number := by
  rw [run_result]
  cases longNumber? o chunks with
  | some number => simp
  | none => cases (transformAll o chunks).result <;> simp [Except.mapError]

theorem run_eq_reported_iff {err : Error} : (run o chunks).result = .error (.reported err) ↔
    longNumber? o chunks = none ∧ (transformAll o chunks).result = .error err := by
  rw [run_result]
  cases longNumber? o chunks with
  | some number => simp
  | none => cases (transformAll o chunks).result <;> simp [Except.mapError]

/-- Whatever a run ends with, up to there it is the run without a limit. -/
theorem isPrefix_run_events (o : Options) (chunks : List Text) :
    (run o chunks).events <+: (transformAll o chunks).events := by
  rw [run, transformLimited, transformAll, transform]
  cases Sheet.longNumber? (coalesce chunks) with
  | some number => cases Sheet.read (coalesce chunks) <;> exact ⟨_, rfl⟩
  | none =>
    cases Sheet.read (coalesce chunks) with
    | ok s => exact List.prefix_rfl
    | error e => exact (List.prefix_append_right_inj _).mpr ((List.takeWhile_prefix _).flatMap _)

theorem run_warnings_of_read (h : Sheet.readLimited (coalesce chunks) = .ok s) :
    (run o chunks).warnings = (transformLimited o (coalesce chunks)).warnings := by
  obtain ⟨hl, hs⟩ := Sheet.readLimited_eq_ok_iff.mp h
  rw [run, transformLimited, hl, transform, hs]
  rfl

theorem isPrefix_run_warnings (o : Options) (chunks : List Text) :
    (run o chunks).warnings <+: (transformAll o chunks).warnings :=
  (isPrefix_run_events o chunks).filterMap _

end CustomProperties.Chunks
