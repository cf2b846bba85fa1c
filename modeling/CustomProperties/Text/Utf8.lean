import CustomProperties.Text.Quoted

/-! # UTF-8

Strict decoding. A fault names the bytes that cannot be part of a character: one byte, or the
first bytes of a character that does not go on.
-/

namespace CustomProperties.Utf8

/-- Why bytes are not a text. -/
inductive Cause
  | invalidStart
  | invalidContinuation
  | unexpectedEnd
  deriving DecidableEq, Repr

def Cause.message : Cause → Text
  | invalidStart => "invalid start byte"
  | invalidContinuation => "invalid continuation byte"
  | unexpectedEnd => "unexpected end of data"

/-- The first byte at fault, its position, how many bytes are at fault, and why. -/
structure Fault where
  byte : UInt8
  position : Nat
  length : Nat
  cause : Cause
  deriving DecidableEq, Repr

def Fault.message (f : Fault) : Text :=
  let last := f.position + f.length - 1
  "'utf-8' codec can't decode " ++
    (if f.length = 1 then
      "byte 0x" ++ Text.hexPadded 2 f.byte.toNat ++ " in position " ++ Text.ofNat f.position
    else "bytes in position " ++ Text.ofNat f.position ++ ['-'] ++ Text.ofNat last) ++
    ": " ++ f.cause.message

/-- How a character of several bytes goes on after its first byte: the bits that this one holds,
how many bytes follow, and the range of the first of them. -/
structure Lead where
  bits : Nat
  more : Nat
  low : UInt8
  high : UInt8
  deriving DecidableEq, Repr

def lead? (b : UInt8) : Option Lead :=
  if 0xC2 ≤ b ∧ b ≤ 0xDF then some ⟨b.toNat - 0xC0, 1, 0x80, 0xBF⟩
  else if b = 0xE0 then some ⟨0, 2, 0xA0, 0xBF⟩
  else if b = 0xED then some ⟨0xD, 2, 0x80, 0x9F⟩
  else if 0xE1 ≤ b ∧ b ≤ 0xEF then some ⟨b.toNat - 0xE0, 2, 0x80, 0xBF⟩
  else if b = 0xF0 then some ⟨0, 3, 0x90, 0xBF⟩
  else if 0xF1 ≤ b ∧ b ≤ 0xF3 then some ⟨b.toNat - 0xF0, 3, 0x80, 0xBF⟩
  else if b = 0xF4 then some ⟨4, 3, 0x80, 0x8F⟩
  else none

/-- The code point of a character of which `more` bytes are missing, the first of them in a range;
or how many of them stand there, and why the next one does not. -/
def readMore (more : Nat) (low high : UInt8) (bits : Nat) (bytes : List UInt8) :
    Except (Nat × Cause) (Nat × List UInt8) :=
  match more, bytes with
  | 0, bytes => .ok (bits, bytes)
  | _ + 1, [] => .error (0, .unexpectedEnd)
  | more + 1, b :: bytes =>
    if low ≤ b ∧ b ≤ high then
      (readMore more 0x80 0xBF (64 * bits + (b.toNat - 0x80)) bytes).mapError fun (n, cause) =>
        (n + 1, cause)
    else .error (0, .invalidContinuation)

theorem length_readMore {more bits code : Nat} {low high : UInt8} {bytes rest : List UInt8}
    (h : readMore more low high bits bytes = .ok (code, rest)) : rest.length ≤ bytes.length := by
  induction more generalizing low high bits bytes with
  | zero => cases bytes <;> (cases h; exact Nat.le_refl _)
  | succ more ih =>
    cases bytes with
    | nil => cases h
    | cons b bytes =>
      rw [readMore] at h
      split at h
      · cases hr : readMore more 0x80 0xBF (64 * bits + (b.toNat - 0x80)) bytes with
        | error e => rw [hr] at h; cases h
        | ok r =>
          rw [hr] at h
          cases h
          exact Nat.le_succ_of_le (ih hr)
      · cases h

/-- Decode what follows the first `position` bytes, whose text is `done`, its end first. -/
def decodeOnto (done : Text) (position : Nat) (bytes : List UInt8) : Except Fault Text :=
  match bytes with
  | [] => .ok done.reverse
  | b :: bytes =>
    if b < 0x80 then decodeOnto (Char.ofNat b.toNat :: done) (position + 1) bytes
    else
      match lead? b with
      | none => .error ⟨b, position, 1, .invalidStart⟩
      | some l =>
        match _ : readMore l.more l.low l.high l.bits bytes with
        | .error (n, cause) => .error ⟨b, position, n + 1, cause⟩
        | .ok (code, rest) => decodeOnto (Char.ofNat code :: done) (position + l.more + 1) rest
termination_by bytes.length
decreasing_by
  · simp
  · exact Nat.lt_succ_of_le (length_readMore ‹_›)

def decode (bytes : List UInt8) : Except Fault Text := decodeOnto [] 0 bytes

/-- Every line break of a file becomes a line feed. -/
def universalNewlinesOnto (done : Text) : Text → Text
  | [] => done.reverse
  | '\r' :: '\n' :: t => universalNewlinesOnto ('\n' :: done) t
  | c :: t => universalNewlinesOnto ((if c = '\r' then '\n' else c) :: done) t

/-- The text of a file. -/
def readText (bytes : List UInt8) : Except Fault Text := (decode bytes).map (universalNewlinesOnto [])

end CustomProperties.Utf8
