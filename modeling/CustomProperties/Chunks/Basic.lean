import CustomProperties.Reference
import CustomProperties.Text.Digit
import CustomProperties.Text.Word

/-! # Chunks

Sheets are joined into one text. A chunk that can neither define nor use a variable is left out of
it, and a marker comment with its index keeps its place.
-/

namespace CustomProperties.Chunks

def markerStart : Text := "/*__CSSVARS-CHUNK-"

def markerEnd : Text := "__*/"

def marker (index : Nat) : Text := markerStart ++ Text.ofNat index ++ markerEnd

/-- The text after the first root selector, which no word character continues. -/
def afterRoot? : Text → Option Text
  | [] => none
  | c :: t =>
    match Text.dropPrefix? ":root" (c :: t) with
    | some rest => if rest.head?.any Text.isWord then afterRoot? t else some rest
    | none => afterRoot? t

/-- Whether the name of a custom property may follow a root selector. -/
def mayDefine (css : Text) : Bool := (afterRoot? css).any (Text.occurs "--")

/-- Whether a chunk can contribute nothing to a transform. -/
def isInert (css : Text) : Bool := !Reference.occursIn css && !mayDefine css

/-- A chunk, or its marker if it is inert. -/
def standIn (css : Text) (index : Nat) : Text := if isInert css then marker index else css

def coalesce (chunks : List Text) : Text := (chunks.zipIdx.map fun (css, i) => standIn css i).flatten

/-- The digits in the marker that a text starts with, and the text after it. -/
def markerDigits? (t : Text) : Option (Text × Text) :=
  match Text.dropPrefix? markerStart t with
  | none => none
  | some rest =>
    let digits := rest.takeWhile fun c => (Text.digit? c).isSome
    if digits.isEmpty then none
    else (Text.dropPrefix? markerEnd (rest.drop digits.length)).map (digits, ·)

/-- The index in the marker that a text starts with, and the text after it. -/
def marker? (t : Text) : Option (Nat × Text) :=
  (markerDigits? t).map fun (digits, rest) => (Text.valueOf digits, rest)

theorem length_markerDigits? {t rest digits : Text} (h : markerDigits? t = some (digits, rest)) :
    rest.length < t.length := by
  unfold markerDigits? at h
  split at h
  · contradiction
  · next r hr =>
    dsimp only at h
    split at h
    · contradiction
    · obtain ⟨after, ha, he⟩ := Option.map_eq_some_iff.mp h
      cases he
      have h₁ := congrArg List.length (Text.dropPrefix?_eq_some.mp hr)
      have h₂ := congrArg List.length (Text.dropPrefix?_eq_some.mp ha)
      have hs : markerStart.length = 18 := rfl
      simp only [List.length_append, List.length_drop] at h₁ h₂
      omega

theorem length_marker? {t rest : Text} {i : Nat} (h : marker? t = some (i, rest)) :
    rest.length < t.length := by
  obtain ⟨⟨digits, r⟩, hm, he⟩ := Option.map_eq_some_iff.mp h
  cases he
  exact length_markerDigits? hm

/-- Put chunks back for their markers, after what has been `done`, the last character first. A
marker without a chunk is kept, and one whose index has too many digits to be read is a failure. -/
def tryRestoreOnto (chunks : List Text) (done : Text) (t : Text) : Except Text.LongNumber Text :=
  match _ : markerDigits? t with
  | some (digits, rest) =>
    match Text.readNat digits with
    | .error number => .error number
    | .ok i =>
      let chunk := chunks[i]?.getD (t.take (t.length - rest.length))
      tryRestoreOnto chunks (chunk.reverse ++ done) rest
  | none =>
    match t with
    | [] => .ok done.reverse
    | c :: t => tryRestoreOnto chunks (c :: done) t
termination_by t.length
decreasing_by
  · exact length_markerDigits? ‹_›
  · simp

def tryRestore (chunks : List Text) (t : Text) : Except Text.LongNumber Text :=
  tryRestoreOnto chunks [] t

/-- Put chunks back where an index of any number of digits is read. -/
def restoreOnto (chunks : List Text) (done : Text) (t : Text) : Text :=
  match _ : marker? t with
  | some (i, rest) =>
    let chunk := chunks[i]?.getD (t.take (t.length - rest.length))
    restoreOnto chunks (chunk.reverse ++ done) rest
  | none =>
    match t with
    | [] => done.reverse
    | c :: t => restoreOnto chunks (c :: done) t
termination_by t.length
decreasing_by
  · exact length_marker? ‹_›
  · simp

def restore (chunks : List Text) (t : Text) : Text := restoreOnto chunks [] t

end CustomProperties.Chunks
