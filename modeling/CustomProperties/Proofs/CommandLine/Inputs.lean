import CustomProperties.Proofs.CommandLine.Sources
import CustomProperties.Proofs.Text.Occurrence
import Mathlib.Data.List.Infix

/-! # Configurations and assignments of commands

What a command reads besides its sources. A configuration is read if it is a text and valid. A
configuration that is no JSON is refused; one that cannot be decoded, nests too deep or has a number
with too many digits breaks the command off.
-/

namespace CustomProperties

namespace FileTree

end FileTree

namespace FileTree

variable {t : FileTree} {depth : Nat}

open CommandLine (within)

def config (t : FileTree) (depth : Nat) (path : Path) :
    Except ConfigFault (Except ConfigError Config) :=
  match t.read path with
  | .ok bytes => Config.ofBytes depth path bytes
  | .error fault =>
    if fault.isSystemError then .ok (.error (.unreadable path (.file fault)))
    else .error (.file fault)

end FileTree

namespace CommandLine

variable {i : Invocation}

end CommandLine

/-! ### Assignments -/

end CustomProperties
