import CustomProperties.Chunks.Transform
import CustomProperties.CommandLine.Arguments
import CustomProperties.Files.Source
import CustomProperties.Options.Load
import CustomProperties.Report

/-! # Commands

A command reads its configuration and its sources from a file store and leaves an output. What is
wrong with what it reads ends it with status 1 and an error in the log, as far as something is
there to report it; the rest breaks it off.
-/

namespace CustomProperties.CommandLine

/-- What is wrong with the input of a command. -/
inductive CommandError
  | config (error : ConfigError)
  | source (error : SourceError)
  | parse (error : ParseError)
  | chunks (error : Chunks.Error)
  deriving DecidableEq, Repr

def CommandError.message : CommandError → Text
  | config e => e.message
  | source e => e.message
  | parse e => e.message
  | chunks e => e.message

/-- What breaks a command off, since nothing reports it. -/
inductive Abort
  | level (fault : Level.Fault)
  | config (fault : ConfigFault)
  | source (fault : FileFault)
  | number (number : Text.LongNumber)
  | output (fault : FileFault)
  deriving DecidableEq, Repr

/-- How a command ends; `log` holds the events that are shown. -/
structure Finish where
  status : Nat
  output : Text
  log : List Event
  failure : Option CommandError
  deriving DecidableEq

inductive Ending
  | help
  | rejected
  | finished (finish : Finish)
  | aborted (abort : Abort)
  deriving DecidableEq

def shown (l : Level) (es : List Event) : List Event := es.filter (Event.isShown l)

def failed (command : Command) (l : Level) (log : List Event) (e : CommandError) : Ending :=
  .finished ⟨1, [], log ++ shown l [.commandFailed command e.message], some e⟩

/-- The options of an invocation, over those of its configuration. -/
def applyFlags (i : Invocation) (c : Config) : Config :=
  { c with onlyVariables := c.onlyVariables && !i.keepAll
           preserve := c.preserve && !i.noPreserve
           fixNestedCalc := c.fixNestedCalc && !i.noFixCalc
           silent := c.silent || i.silent }

/-- The assignments of an invocation win over the overrides of its configuration. -/
def applyAssignments (b : Bindings) (c : Config) : Config :=
  { c with overrides := c.overrides.insertAll b.entries }

section

variable {m : Type → Type} [Monad m] [FileStore m]

/-- The configuration of an invocation, and what the log says about it. -/
def configOf (depth : Nat) (i : Invocation) :
    m (Except Abort (Except ConfigError Config × List Event)) := do
  match i.config with
  | none => return .ok (.ok {}, [])
  | some path =>
    let path := Path.ofText path
    match ← Config.load depth path with
    | .error fault => return .error (.config fault)
    | .ok (.error e) => return .ok (.error e, [])
    | .ok (.ok c) => return .ok (.ok c, [.configLoaded path.text])

/-- Leave an output in a file, or else on the standard output. -/
def leave (command : Command) (out : Option Text) (l : Level) (log : List Event) (css : Text) :
    m Ending := do
  match out with
  | none => return .finished ⟨0, css ++ ['\n'], log, none⟩
  | some path =>
    let path := Path.ofText path
    match ← FileStore.write path (String.ofList css).toUTF8.toList with
    | .error fault => return .aborted (.output fault)
    | .ok () => return .finished ⟨0, [], log ++ shown l [.outputWritten command path.text], none⟩

/-- Transform the sources of a complete configuration. -/
def transformSources (i : Invocation) (c : Config) (l : Level) (log : List Event) : m Ending := do
  let paths := if i.paths.isEmpty then c.sources else i.paths
  if paths.isEmpty then return failed .transform l log (.config .noSources)
  match ← (Source.collect paths).run with
  | .error (.fault fault) => return .aborted (.source fault)
  | .error (.reported e) => return failed .transform l log (.source e)
  | .ok sources =>
    let run := Chunks.run c.toOptions (sources.map Source.text)
    let log := log ++ shown l (.sourcesLoaded sources.length :: run.events)
    match run.result with
    | .error (.number number) => return .aborted (.number number)
    | .error (.reported e) => return failed .transform l log (.chunks e)
    | .ok css => leave .transform i.out l log css

def runTransform (depth : Nat) (i : Invocation) (l : Level) : m Ending := do
  match ← configOf depth i with
  | .error a => return .aborted a
  | .ok (.error e, events) => return failed .transform l (shown l events) (.config e)
  | .ok (.ok c, events) =>
    match readAssignments i.assignments with
    | .error e => return failed .transform l (shown l events) (.config e)
    | .ok b =>
      let c := applyAssignments b (applyFlags i c)
      transformSources i c (if c.silent then .error else l) (shown l events)

def runScan (i : Invocation) (l : Level) : m Ending := do
  match ← (Source.collect i.paths).run with
  | .error (.fault fault) => return .aborted (.source fault)
  | .error (.reported e) => return failed .scan l [] (.source e)
  | .ok sources =>
    let run := Report.ofChunksLimited (sources.map Source.text)
    let log := shown l (.sourcesLoaded sources.length :: run.events)
    match run.result with
    | .error (.number number) => return .aborted (.number number)
    | .error (.reported e) => return failed .scan l log (.parse e)
    | .ok r => leave .scan i.out l log (r.write (if i.pretty then .indented else .compact))

/-- Run the command that the arguments give, with a log of the level that a setting asks for, where
brackets may nest to the given depth in a configuration. -/
def run (depth : Nat) (args : List Text) (levelSetting : Option Text) : m Ending := do
  match Level.ofSetting levelSetting with
  | .error fault => return .aborted (.level fault)
  | .ok l =>
    match CommandLine.read args with
    | .help => return .help
    | .rejected => return .rejected
    | .invocation i =>
      match i.command with
      | .transform => runTransform depth i l
      | .scan => runScan i l

end

end CustomProperties.CommandLine
