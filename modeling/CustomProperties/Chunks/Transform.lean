import CustomProperties.Chunks.Basic
import CustomProperties.Transform

/-! # Transforming chunks

All chunks are transformed in one pass. If their joined text has no rule tree, each one is tried
on its own to find those at fault. Otherwise the inert chunks are put back. A number with too many
digits breaks this off, be it an integer of a sheet or the index of a marker.
-/

namespace CustomProperties.Chunks

/-- Why chunks cannot be transformed: some of them are at fault, or only their joined text is. -/
inductive Error
  | chunks (failures : List (Nat × ParseError))
  | joined (error : ParseError)
  deriving DecidableEq, Repr

def failuresMessage (failures : List (Nat × ParseError)) : Text :=
  let indices := failures.map fun f => Text.ofNat f.1
  let details := failures.map fun f => ['['] ++ Text.ofNat f.1 ++ "] " ++ f.2.message
  "CSS chunk(s) " ++ List.intercalate ", " indices ++ " failed to parse: " ++
    List.intercalate "; " details

def Error.message : Error → Text
  | chunks failures => failuresMessage failures
  | joined e => e.message

/-- The chunks that are not inert, with their indices. -/
def active (chunks : List Text) : List (Nat × Text) :=
  (chunks.zipIdx.filter fun (css, _) => !isInert css).map fun (css, i) => (i, css)

/-- What happens when a chunk is tried on its own. -/
def tryAlone (o : Options) (i : Nat) (css : Text) : List Event :=
  match transform o css with
  | ⟨.ok _, events⟩ => events
  | ⟨.error e, events⟩ => events ++ [.chunkFailed i e]

/-- The chunks that have no rule tree on their own, with their errors. -/
def failures (o : Options) (chunks : List Text) : List (Nat × ParseError) :=
  (active chunks).filterMap fun (i, css) =>
    match (transform o css).result with
    | .ok _ => none
    | .error e => some (i, e)

/-- How many chunks are transformed, and how many are not. -/
def batched (chunks : List Text) : Event :=
  .batched (active chunks).length (chunks.countP isInert)

/-- What is reported of chunks whose joined text has no rule tree. -/
def reported (o : Options) (chunks : List Text) (e : ParseError) : Error :=
  if (failures o chunks).isEmpty then .joined e else .chunks (failures o chunks)

/-- Transform chunks and put the inert ones back, where numbers may have any number of digits. -/
def transformAll (o : Options) (chunks : List Text) : Traced (Except Error Text) :=
  match transform o (coalesce chunks) with
  | ⟨.ok css, events⟩ => ⟨.ok (restore chunks css), batched chunks :: events⟩
  | ⟨.error e, events⟩ =>
    ⟨.error (reported o chunks e), [batched chunks] ++ events ++ [.retried e] ++
      (active chunks).flatMap fun (i, css) => tryAlone o i css⟩

/-- What a run of chunks ends with in place of a text: an error of the chunks, or a number with too
many digits in a sheet or a marker. -/
inductive Failure
  | reported (error : Error)
  | number (number : Text.LongNumber)
  deriving DecidableEq, Repr

/-- The first number that breaks off the trying of chunks on their own. -/
def longAlone? (chunks : List Text) : Option Text.LongNumber :=
  (active chunks).findSome? fun c => Sheet.longNumber? c.2

/-- Transform chunks and put the inert ones back, if their numbers are read. -/
def run (o : Options) (chunks : List Text) : Traced (Except Failure Text) :=
  match transformLimited o (coalesce chunks) with
  | ⟨.ok css, events⟩ => ⟨(tryRestore chunks css).mapError .number, batched chunks :: events⟩
  | ⟨.error (.number number), events⟩ => ⟨.error (.number number), batched chunks :: events⟩
  | ⟨.error (.reported e), events⟩ =>
    let tried := (active chunks).takeWhile fun c => (Sheet.longNumber? c.2).isNone
    ⟨.error ((longAlone? chunks).elim (.reported (reported o chunks e)) .number),
      [batched chunks] ++ events ++ [.retried e] ++ tried.flatMap fun (i, css) => tryAlone o i css⟩

end CustomProperties.Chunks
