import CustomProperties.CommandLine.Run

/-! # The program

The files of the system as a store, and the commands run on them.
-/

namespace CustomProperties

namespace FileSystem

def faults : List FileFault :=
  [.missing, .denied, .alreadyExists, .notDirectory, .isDirectory, .nameTooLong]

/-- The fault with this number of the system. -/
def fault? (number : Nat) : Option FileFault :=
  faults.find? fun f => f.systemError?.any (·.1 = number)

def numberOf? : IO.Error → Option Nat
  | .noFileOrDirectory _ code _ => some code.toNat
  | .permissionDenied _ code _ => some code.toNat
  | .alreadyExists _ code _ => some code.toNat
  | .inappropriateType _ code _ => some code.toNat
  | .invalidArgument _ code _ => some code.toNat
  | _ => none

/-- Do something with a path. Errors of the system that have no fault stay errors. -/
def attempt {α : Type} (p : Path) (x : IO α) : IO (Except FileFault α) := do
  if p.text.contains '\x00' then return .error .embeddedNull
  try
    return .ok (← x)
  catch e =>
    match (numberOf? e).bind fault? with
    | some fault => return .error fault
    | none => throw e

def placeOf (p : Path) := System.mkFilePath [String.ofList p.text]

def stat (p : Path) : IO (Except FileFault FileKind) := do
  match ← attempt p (placeOf p).metadata with
  | .error fault => return .error fault
  | .ok found => return if found.type == .dir then .ok .directory else .ok .file

/-- What is listed below a directory, down to a depth that no path is long enough to reach. A
directory that is closed has nothing below it. -/
def below (p : Path) : (depth : Nat) → IO (Except FileFault (List Path))
  | 0 => return .error .nameTooLong
  | depth + 1 => do
    match ← attempt p (placeOf p).readDir with
    | .error .denied => return .ok []
    | .error fault => return .error fault
    | .ok entries =>
      let mut found : List Path := []
      for entry in entries do
        let q := p.join [entry.fileName.toList]
        found := found ++ [q]
        if (← stat q).toOption == some .directory then
          match ← below q depth with
          | .error fault => return .error fault
          | .ok more => found := found ++ more
      return .ok found

def read (p : Path) : IO (Except FileFault (List UInt8)) :=
  attempt p do return (← IO.FS.readBinFile (placeOf p)).toList

def write (p : Path) (bytes : List UInt8) : IO (Except FileFault Unit) := do
  match ← attempt p.parent (IO.FS.createDirAll (placeOf p.parent)) with
  | .error fault => return .error fault
  | .ok () => attempt p (IO.FS.writeBinFile (placeOf p) ⟨bytes.toArray⟩)

end FileSystem

instance : FileStore IO where
  stat := FileSystem.stat
  below p := FileSystem.below p FileTree.pathLimit
  read := FileSystem.read
  write := FileSystem.write

namespace CommandLine

def usage : String :=
  "usage: transform [--out FILE] [--config FILE] [--keep-all] [--no-preserve] [--no-fix-calc]\n" ++
  "                 [--var NAME=VALUE] [--silent] [PATH ...]\n" ++
  "       scan [--out FILE] [--pretty] PATH ...\n"

def Abort.message : Abort → Text
  | level .unknown => "The level of the log is unknown"
  | level .notText => "The level of the log is no text"
  | config (.file fault) => "The config cannot be opened: " ++ fault.words
  | config (.undecodable fault) => "The config is not a text: " ++ fault.message
  | config (.longNumber n) => n.message
  | config .tooDeep => "Brackets nest too deep in the config"
  | source fault => "A source cannot be looked for: " ++ fault.words
  | number n => n.message
  | output fault => "The output cannot be left: " ++ fault.words

/-- Show how a command ends, and give its exit status. -/
def Ending.report (ending : Ending) : IO UInt32 := do
  match ending with
  | .help =>
    IO.print usage
    return 0
  | .rejected =>
    IO.eprint usage
    return 2
  | .aborted abort =>
    IO.eprintln (String.ofList abort.message)
    return 1
  | .finished finish =>
    for event in finish.log do
      IO.eprintln (String.ofList event.line)
    IO.print (String.ofList finish.output)
    return UInt32.ofNat finish.status

end CommandLine

end CustomProperties

/-- How deep brackets may nest in a configuration. -/
def nesting : Nat := 990

open CustomProperties in
def main (args : List String) : IO UInt32 := do
  let setting ← IO.getEnv "CSS_VAR_RESOLVER_LOG_LEVEL"
  let ending ← CommandLine.run nesting (args.map String.toList) (setting.map String.toList)
  ending.report
