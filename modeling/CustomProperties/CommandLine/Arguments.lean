import CustomProperties.Log
import CustomProperties.Text.Digit

/-! # Arguments

Options may stand before and after paths and may be shortened as long as they stay unambiguous.
Paths stand together in one place. Two hyphens end the options.
-/

namespace CustomProperties.CommandLine

inductive Flag
  | help
  | out
  | config
  | keepAll
  | noPreserve
  | noFixCalc
  | assign
  | silent
  | pretty
  deriving DecidableEq, Repr

def Flag.takesValue : Flag → Bool
  | .out | .config | .assign => true
  | _ => false

abbrev Flags := List (Text × Flag)

def helpFlags : Flags := [("-h", .help), ("--help", .help)]

def transformFlags : Flags :=
  [("--out", .out), ("--config", .config), ("--keep-all", .keepAll),
    ("--no-preserve", .noPreserve), ("--no-fix-calc", .noFixCalc), ("--var", .assign),
    ("--silent", .silent)]

def scanFlags : Flags := [("--out", .out), ("--pretty", .pretty)]

def flagsOf : Command → Flags
  | .transform => helpFlags ++ transformFlags
  | .scan => helpFlags ++ scanFlags

/-- What an argument is taken for. An option may bring its value after an equals sign. -/
inductive Role
  | value
  | option (name : Text) (flag : Flag) (attached : Option Text)
  | unknown
  | dashes
  deriving DecidableEq, Repr

/-- Negative numbers are values. -/
def isNegativeNumber (arg : Text) : Bool :=
  let isDigit (c : Char) : Bool := (Text.digit? c).isSome
  let arg := if arg.getLast? = some '\n' then arg.dropLast else arg
  match arg with
  | '-' :: t =>
    let whole := t.takeWhile isDigit
    match t.dropWhile isDigit with
    | [] => !whole.isEmpty
    | '.' :: fraction => !fraction.isEmpty && fraction.all isDigit
    | _ => false
  | _ => false

/-- An option and what is attached to it: after an equals sign to a long name, and directly to a
single letter. -/
def splitAttached : Text → Text × Option Text
  | '-' :: '-' :: t =>
    match Text.breakOn "=" t with
    | none => ('-' :: '-' :: t, none)
    | some (name, value) => ('-' :: '-' :: name, some value)
  | '-' :: c :: t => (['-', c], some t)
  | arg => (arg, none)

/-- The option that an argument names or abbreviates; nothing if it abbreviates several. -/
def optionOf? (flags : Flags) (arg : Text) : Option Role :=
  let (name, attached) := splitAttached arg
  match flags.lookup name with
  | some flag => some (.option name flag attached)
  | none =>
    match flags.filter fun f => name.isPrefixOf f.1 with
    | [] => some (if isNegativeNumber arg || arg.contains ' ' then .value else .unknown)
    | [(full, flag)] => some (.option full flag attached)
    | _ => none

/-- What an argument is taken for, or nothing if it abbreviates several options. -/
def roleOf? (flags : Flags) (arg : Text) : Option Role :=
  match arg with
  | '-' :: _ :: _ =>
    match flags.lookup arg with
    | some flag => some (.option arg flag none)
    | none => optionOf? flags arg
  | _ => some .value

/-- What each argument is taken for. -/
def rolesOf? (flags : Flags) : List Text → Option (List (Text × Role))
  | [] => some []
  | arg :: args =>
    if arg = "--" then some ((arg, .dashes) :: args.map (·, .value))
    else (roleOf? flags arg).bind fun role => (rolesOf? flags args).map ((arg, role) :: ·)

/-- A command with its options. -/
structure Invocation where
  command : Command
  paths : List Text := []
  out : Option Text := none
  config : Option Text := none
  keepAll : Bool := false
  noPreserve : Bool := false
  noFixCalc : Bool := false
  assignments : List Text := []
  silent : Bool := false
  pretty : Bool := false
  deriving DecidableEq, Repr

inductive Parsed
  | help
  | rejected
  | invocation (invocation : Invocation)
  deriving DecidableEq, Repr

namespace Invocation

def setFlag (i : Invocation) : Flag → Invocation
  | .keepAll => { i with keepAll := true }
  | .noPreserve => { i with noPreserve := true }
  | .noFixCalc => { i with noFixCalc := true }
  | .silent => { i with silent := true }
  | .pretty => { i with pretty := true }
  | _ => i

/-- An empty path is as good as none. -/
def path? (value : Text) : Option Text := if value = [] then none else some value

def setValue (i : Invocation) (flag : Flag) (value : Text) : Invocation :=
  match flag with
  | .out => { i with out := path? value }
  | .config => { i with config := path? value }
  | .assign => { i with assignments := i.assignments ++ [value] }
  | _ => i

/-- Where the reading of arguments stands. -/
structure Progress where
  invocation : Invocation
  hasPaths : Bool
  hasExtras : Bool

def Progress.finish (p : Progress) : Parsed :=
  if p.hasExtras ∨ (p.invocation.command = .scan ∧ !p.hasPaths) then .rejected
  else .invocation p.invocation

def isPositional (a : Text × Role) : Bool := a.2 == .value || a.2 == .dashes

/-- Paths stand together, and two hyphens among them only end the options. -/
def Progress.takePaths (p : Progress) (chunk : List (Text × Role)) : Progress :=
  if p.hasPaths ∨ (p.invocation.command = .scan ∧ !chunk.any (·.2 == .value)) then
    { p with hasExtras := true }
  else
    { p with hasPaths := true,
             invocation := { p.invocation with paths := (chunk.map (·.1)).erase "--" } }

/-- Letters behind a short option, and an equals sign in front of them changes nothing, are short
options of their own. -/
def shortOptions : Text → Text
  | '=' :: letters => letters
  | letters => letters

/-- A request for help. The short option may be repeated but takes no value. -/
def ofHelp (name : Text) (attached : Option Text) : Parsed :=
  match attached with
  | none => .help
  | some rest =>
    if name = "-h" ∧ shortOptions rest ≠ [] ∧ (shortOptions rest).all (· == 'h') then .help
    else .rejected

def readFrom (p : Progress) (args : List (Text × Role)) : Parsed :=
  match args with
  | [] => p.finish
  | (_, .unknown) :: rest => readFrom { p with hasExtras := true } rest
  | (_, .option name flag attached) :: rest =>
    if flag = .help then ofHelp name attached
    else if flag.takesValue then
      match attached, rest with
      | some value, rest => readFrom { p with invocation := p.invocation.setValue flag value } rest
      | none, (value, .value) :: rest =>
        readFrom { p with invocation := p.invocation.setValue flag value } rest
      | none, _ => .rejected
    else if attached.isSome then .rejected
    else readFrom { p with invocation := p.invocation.setFlag flag } rest
  | a :: rest =>
    readFrom (p.takePaths (a :: rest.takeWhile isPositional)) (rest.dropWhile isPositional)
termination_by args.length
decreasing_by
  · simp
  · simp
  · simp only [List.length_cons]; omega
  · simp
  · exact Nat.lt_succ_of_le (List.dropWhile_sublist isPositional (l := rest)).length_le

def read (command : Command) (args : List Text) : Parsed :=
  match rolesOf? (flagsOf command) args with
  | none => .rejected
  | some roles => readFrom ⟨{ command }, false, false⟩ roles

end Invocation

def commandOf? (arg : Text) : Option Command :=
  if arg = "transform" then some .transform else if arg = "scan" then some .scan else none

/-- Arguments before a command are unknown, unless they ask for help. -/
def readBefore (hasExtras : Bool) : List Text → Parsed
  | [] => .rejected
  | arg :: args =>
    if arg = "--" then .rejected
    else
      match roleOf? helpFlags arg with
      | some (.option name _ attached) => Invocation.ofHelp name attached
      | some .unknown => readBefore true args
      | _ =>
        match commandOf? arg with
        | none => .rejected
        | some command =>
          match Invocation.read command args with
          | .invocation i => if hasExtras then .rejected else .invocation i
          | parsed => parsed

/-- The command that a whole list of arguments gives. -/
def read (args : List Text) : Parsed := readBefore false args

end CustomProperties.CommandLine
