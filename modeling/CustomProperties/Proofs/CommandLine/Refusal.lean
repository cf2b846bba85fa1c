import CustomProperties.Proofs.Chunks.Isolation
import CustomProperties.Proofs.CommandLine.Inputs

/-! # Refused input

A command that cannot read its input ends with status 1 and an error in its log. It writes nothing
and leaves the store as it is. What is taken for no error escapes this and breaks the command off:
a level of the log that is none, a configuration that is no text or holds too much, a path that the
system refuses to look at, and a number with too many digits in a sheet or a marker.
-/

namespace CustomProperties.CommandLine

open Chunks (coalesce)

variable {depth : Nat} {t : FileTree} {i : Invocation} {l : Level} {c : Config}
  {texts args : List Text} {a : Abort}

end CustomProperties.CommandLine
