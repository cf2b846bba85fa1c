import CustomProperties.Files.Store
import CustomProperties.Json.Read
import CustomProperties.Options.Config

/-! # Loading configurations

A configuration comes from a file and is changed by assignments `NAME=VALUE`.
-/

namespace CustomProperties

/-- Why nothing is read from a configuration file. -/
inductive Unreadable
  | file (fault : FileFault)
  | notJson
  deriving DecidableEq, Repr

def Unreadable.message (path : Path) : Unreadable → Text
  | file fault => fault.message path
  | notJson => "not a JSON text"

inductive ConfigError
  | unreadable (path : Path) (cause : Unreadable)
  | invalid (path : Path) (issues : List Issue)
  | badAssignment (text : Text)
  | noSources
  deriving DecidableEq, Repr

namespace ConfigError

/-- The message without its details. -/
def headline : ConfigError → Text
  | unreadable path _ => "Cannot read config " ++ path.text
  | invalid path _ => "Invalid config " ++ path.text
  | badAssignment text => "Expected NAME=VALUE for --var, got " ++ Text.quoted text
  | noSources => "No CSS sources given (pass paths or set 'sources' in the config)"

def details : ConfigError → List Text
  | unreadable path cause => [cause.message path]
  | invalid _ issues => issues.map fun i => i.mismatch.code
  | _ => []

def message (e : ConfigError) : Text :=
  if e.details.isEmpty then e.headline
  else e.headline ++ ": " ++ List.intercalate ", " e.details

end ConfigError

/-- What breaks off the reading of a configuration: it is taken for no error of the
configuration. -/
inductive ConfigFault
  | file (fault : FileFault)
  | undecodable (fault : Utf8.Fault)
  | longNumber (number : Text.LongNumber)
  | tooDeep
  deriving DecidableEq, Repr

namespace Config

/-- The configuration in a text. Only a text that is not JSON is an error of the configuration. -/
def ofText (depth : Nat) (path : Path) (text : Text) :
    Except ConfigFault (Except ConfigError Config) :=
  match Json.read depth text with
  | .ok v => .ok ((ofJson v).mapError (.invalid path))
  | .error .notJson => .ok (.error (.unreadable path .notJson))
  | .error (.longNumber number) => .error (.longNumber number)
  | .error .tooDeep => .error .tooDeep

/-- A file that is not a text is no error of the configuration. -/
def ofBytes (depth : Nat) (path : Path) (bytes : List UInt8) :
    Except ConfigFault (Except ConfigError Config) :=
  ((Utf8.readText bytes).mapError .undecodable).bind (ofText depth path)

/-- Load a configuration in which brackets nest to the given depth at most. -/
def load {m : Type → Type} [Monad m] [FileStore m] (depth : Nat) (path : Path) :
    m (Except ConfigFault (Except ConfigError Config)) := do
  match ← FileStore.read path with
  | .ok bytes => return ofBytes depth path bytes
  | .error fault =>
    return if fault.isSystemError then .ok (.error (.unreadable path (.file fault)))
      else .error (.file fault)

end Config

/-- The name and value of an assignment, stripped; the name must not be blank. -/
def readAssignment (text : Text) : Except ConfigError (Text × Text) :=
  match Text.breakOn "=" text with
  | none => .error (.badAssignment text)
  | some (name, value) =>
    if name.all Text.isBlank then .error (.badAssignment text)
    else .ok (Text.strip name, Text.strip value)

/-- The bindings that assignments make. -/
def readAssignments (texts : List Text) : Except ConfigError Bindings :=
  (texts.mapM readAssignment).map .ofList

end CustomProperties
