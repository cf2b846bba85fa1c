import CustomProperties.Position
import CustomProperties.Resolution

/-! # Log

What happens is recorded as events. Each has a level, the component that reports it and a message.
-/

namespace CustomProperties

inductive Level
  | notSet
  | debug
  | info
  | warning
  | error
  | critical
  deriving DecidableEq, Repr

namespace Level

def rank : Level → Nat
  | notSet => 0
  | debug => 10
  | info => 20
  | warning => 30
  | error => 40
  | critical => 50

def name : Level → Text
  | notSet => "NOTSET"
  | debug => "DEBUG"
  | info => "INFO"
  | warning => "WARNING"
  | error => "ERROR"
  | critical => "CRITICAL"

/-- The names under which a level may be asked for. -/
def names : List (Text × Level) :=
  [("CRITICAL", critical), ("FATAL", critical), ("ERROR", error), ("WARNING", warning),
    ("WARN", warning), ("INFO", info), ("DEBUG", debug), ("NOTSET", notSet)]

/-- Why a level is not set: what stands under its name is another text, or it is no text. -/
inductive Fault
  | unknown
  | notText
  deriving DecidableEq, Repr

/-- Names that stand for something, but for no level. -/
def otherNames : List (Text × Fault) := [("BASIC_FORMAT", .unknown), ("_STYLES", .notText)]

/-- The upper case of a letter, where it is of ASCII letters that a name may have. -/
def upper (c : Char) : Text :=
  if c = '\u0131' then ['I']
  else if c = '\u017F' then ['S']
  else if c = '\uFB05' ∨ c = '\uFB06' then ['S', 'T']
  else [c.toUpper]

/-- The level that a setting asks for, in any letter case. -/
def ofSetting (setting : Option Text) : Except Fault Level :=
  match setting with
  | none => .ok info
  | some name =>
    match otherNames.lookup (name.flatMap upper) with
    | some fault => .error fault
    | none => .ok ((names.lookup (name.flatMap upper)).getD info)

/-- The level from which on events are shown; one that is not set is taken as for warnings. -/
def threshold (l : Level) : Level := if l = notSet then warning else l

end Level

/-- What holds for the log of a run: its level, and whether its lines are written at all. -/
structure LogState where
  level : Level
  attached : Bool
  deriving DecidableEq, Repr

namespace LogState

def initial : LogState := ⟨.notSet, false⟩

/-- A setting that is no level leaves the level as it is. -/
def configure (s : LogState) (setting : Option Text) : LogState :=
  ⟨(Level.ofSetting setting).toOption.getD s.level, true⟩

/-- A silent log shows errors only. -/
def silence (s : LogState) (silent : Bool) : LogState := if silent then { s with level := .error } else s

end LogState

/-- The two commands. -/
inductive Command
  | transform
  | scan
  deriving DecidableEq, Repr

inductive Event
  | parsed (rules : Nat)
  | collected (names : Nat)
  | warned (warning : Warning)
  | resolved (declarations names : Nat)
  | batched (active skipped : Nat)
  | retried (error : ParseError)
  | chunkFailed (index : Nat) (error : ParseError)
  | undefinedFound (names : Nat)
  | sourcesLoaded (sources : Nat)
  | configLoaded (path : Text)
  | commandFailed (command : Command) (message : Text)
  | outputWritten (command : Command) (path : Text)
  deriving DecidableEq, Repr

namespace Event

def level : Event → Level
  | parsed _ | collected _ | resolved _ _ | retried _ | configLoaded _ => .debug
  | batched _ _ | undefinedFound _ | sourcesLoaded _ | outputWritten _ _ => .info
  | warned _ => .warning
  | chunkFailed _ _ | commandFailed _ _ => .error

def component : Event → Text
  | parsed _ => "css_var_resolver.core.css_codec"
  | collected _ => "css_var_resolver.core.variables"
  | warned _ => "css_var_resolver.core.value_resolver"
  | resolved _ _ => "css_var_resolver.core.transform"
  | batched _ _ | retried _ | chunkFailed _ _ => "css_var_resolver.core.coalescer"
  | undefinedFound _ => "css_var_resolver.core.scan"
  | sourcesLoaded _ => "css_var_resolver.core.css_sources"
  | configLoaded _ => "css_var_resolver.core.settings"
  | commandFailed .transform _ | outputWritten .transform _ =>
    "css_var_resolver.cli.commands.transform"
  | commandFailed .scan _ | outputWritten .scan _ => "css_var_resolver.cli.commands.scan"

def message : Event → Text
  | parsed rules => "Parsed " ++ Text.ofNat rules ++ " top-level rules"
  | collected names => "Collected " ++ Text.ofNat names ++ " CSS variables"
  | warned w => w.message
  | resolved declarations names =>
    "Resolved " ++ Text.ofNat declarations ++ " declarations using " ++ Text.ofNat names ++
      " variables"
  | batched active skipped =>
    "Transforming " ++ Text.ofNat active ++ " CSS chunk(s), " ++ Text.ofNat skipped ++
      " skipped without variable syntax"
  | retried e => "Combined parse failed, retrying chunks individually: " ++ e.message
  | chunkFailed index e => "CSS chunk " ++ Text.ofNat index ++ " failed to parse: " ++ e.message
  | undefinedFound names => "Found " ++ Text.ofNat names ++ " undefined variable reference(s)"
  | sourcesLoaded sources => "Loaded " ++ Text.ofNat sources ++ " CSS source(s)"
  | configLoaded path => "Loaded resolver config from " ++ path
  | commandFailed _ message => message
  | outputWritten .transform path => "Wrote resolved CSS to " ++ path
  | outputWritten .scan path => "Wrote variable report to " ++ path

/-- The event as a line of the log. -/
def line (e : Event) : Text := e.level.name ++ [' '] ++ e.component ++ ": " ++ e.message

def isShown (l : Level) (e : Event) : Bool := l.threshold.rank ≤ e.level.rank

/-- The warning of an event. -/
def warning? : Event → Option Warning
  | warned w => some w
  | _ => none

end Event

/-- A result with the events on the way to it. -/
structure Traced (α : Type) where
  result : α
  events : List Event
  deriving DecidableEq

/-- The warnings of a run, in order. -/
def Traced.warnings {α : Type} (r : Traced α) : List Warning := r.events.filterMap Event.warning?

end CustomProperties
