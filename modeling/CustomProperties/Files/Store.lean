import CustomProperties.Files.Path
import CustomProperties.Text.Utf8

/-! # File stores

What the commands ask of a file system, and a store whose whole content is a value. The system may
fail at any question: what a path ought to lead to may be missing or closed, and a path may be too
long to be looked at.
-/

namespace CustomProperties

inductive FileKind
  | file
  | directory
  deriving DecidableEq, Repr

/-- Why nothing is done with a path. -/
inductive FileFault
  | missing
  | denied
  | alreadyExists
  | notDirectory
  | isDirectory
  | nameTooLong
  | embeddedNull
  deriving DecidableEq, Repr

namespace FileFault

/-- The number and the words that the system has for a fault. A path with a null character in it
does not reach the system. -/
def systemError? : FileFault → Option (Nat × Text)
  | missing => some (2, "No such file or directory")
  | denied => some (13, "Permission denied")
  | alreadyExists => some (17, "File exists")
  | notDirectory => some (20, "Not a directory")
  | isDirectory => some (21, "Is a directory")
  | nameTooLong => some (36, "File name too long")
  | embeddedNull => none

def isSystemError (f : FileFault) : Bool := f.systemError?.isSome

def words (f : FileFault) : Text := f.systemError?.elim "embedded null byte" Prod.snd

def message (path : Path) (f : FileFault) : Text :=
  match f.systemError? with
  | some (number, words) =>
    "[Errno " ++ Text.ofNat number ++ "] " ++ words ++ ": " ++ Text.quoted path.text
  | none => f.words

/-- Whether a question for the kind of a path is answered by a fault: there is nothing. -/
def meansAbsent : FileFault → Bool
  | missing | notDirectory | embeddedNull => true
  | _ => false

end FileFault

class FileStore (m : Type → Type) where
  /-- What a path leads to. -/
  stat : Path → m (Except FileFault FileKind)
  /-- Everything that is listed below a directory, at any depth. -/
  below : Path → m (Except FileFault (List Path))
  /-- The bytes of a file. -/
  read : Path → m (Except FileFault (List UInt8))
  /-- Write a file, with the directories that it needs. -/
  write : Path → List UInt8 → m (Except FileFault Unit)

/-- The place that a path leads to: components below the working directory, or somewhere outside
of it. -/
inductive Place
  | inside (parts : List Text)
  | outside
  deriving DecidableEq, Repr

/-- What a place may be closed to: reading the bytes of a file or the names in a directory, going
through a directory, and writing to a file or making something in a directory. -/
inductive Access
  | read
  | search
  | write
  deriving DecidableEq, Repr

/-- The files and directories below the working directory, and what is closed of them. -/
structure FileTree where
  files : List (List Text × List UInt8)
  directories : List (List Text)
  closed : List (List Text × Access) := []
  deriving DecidableEq, Repr

namespace FileTree

def empty : FileTree := { files := [], directories := [] }

def kindAt? (t : FileTree) (parts : List Text) : Option FileKind :=
  if parts = [] ∨ t.directories.contains parts then some .directory
  else if (t.files.lookup parts).isSome then some .file
  else none

def allows (t : FileTree) (access : Access) (parts : List Text) : Bool :=
  !t.closed.contains (parts, access)

def addDirectory (t : FileTree) (parts : List Text) : FileTree :=
  if (t.kindAt? parts).isSome then t else { t with directories := t.directories ++ [parts] }

/-- Every directory on the way to a place. -/
def addParents (t : FileTree) (parts : List Text) : FileTree :=
  (List.range parts.length).foldl (fun t n => t.addDirectory (parts.take n)) t

def putBytes (parts : List Text) (bytes : List UInt8) :
    List (List Text × List UInt8) → List (List Text × List UInt8)
  | [] => [(parts, bytes)]
  | f :: fs => if f.1 = parts then (parts, bytes) :: fs else f :: putBytes parts bytes fs

def addFile (t : FileTree) (parts : List Text) (bytes : List UInt8) : FileTree :=
  { t with files := putBytes parts bytes t.files }

/-! ### Finding -/

/-- The bytes that a component of a path may have. -/
def nameLimit : Nat := 255

/-- The bytes that a whole path may have. -/
def pathLimit : Nat := 4095

def byteCount (t : Text) : Nat := t.foldl (fun n c => n + c.utf8Size) 0

/-- One step from a place. Only a directory can be left, and only one that may be searched. -/
def step (t : FileTree) (place : Place) (part : Text) : Except FileFault Place :=
  match place with
  | .outside =>
    if part = ".." then .ok .outside
    else if nameLimit < byteCount part then .error .nameTooLong
    else .error .missing
  | .inside parts =>
    match t.kindAt? parts with
    | none => .error .missing
    | some .file => .error .notDirectory
    | some .directory =>
      if !t.allows .search parts then .error .denied
      else if part = ".." then .ok (if parts = [] then .outside else .inside parts.dropLast)
      else if nameLimit < byteCount part then .error .nameTooLong
      else .ok (.inside (parts ++ [part]))

/-- The place that a path leads to, whether there is anything or not. -/
def locate (t : FileTree) (p : Path) : Except FileFault Place :=
  if p.text.contains '\x00' then .error .embeddedNull
  else if pathLimit < byteCount p.text then .error .nameTooLong
  else p.parts.foldlM t.step (if p.anchor = [] then .inside [] else .outside)

/-- What a place leads to; outside of the working directory there are directories only. -/
def kindOf (t : FileTree) : Place → Except FileFault FileKind
  | .outside => .ok .directory
  | .inside parts =>
    match t.kindAt? parts with
    | none => .error .missing
    | some kind => .ok kind

def stat (t : FileTree) (p : Path) : Except FileFault FileKind := (t.locate p).bind t.kindOf

/-! ### Reading -/

/-- Whether something is listed that stands in a directory, or below it. Nothing is listed of a
directory that may not be read or whose way is closed. -/
def lists (t : FileTree) (parts : List Text) : List Text → Bool
  | [] => false
  | [_] => t.allows .read parts
  | part :: rest =>
    t.allows .read parts && t.allows .search parts && t.lists (parts ++ [part]) rest

/-- The components of everything that is listed below a directory. -/
def listed (t : FileTree) (parts : List Text) : List (List Text) :=
  (t.directories ++ t.files.map Prod.fst).filterMap fun place =>
    let rest := place.drop parts.length
    if parts.isPrefixOf place && t.lists parts rest then some rest else none

/-- Everything that is listed below a directory. A directory is not opened under a path that is too
long. -/
def below (t : FileTree) (p : Path) : Except FileFault (List Path) :=
  (t.locate p).bind fun
    | .outside => .ok []
    | .inside parts =>
      let found := t.listed parts
      if found.any fun rest =>
          t.kindAt? (parts ++ rest) = some .directory ∧ pathLimit < byteCount (p.join rest).text then
        .error .nameTooLong
      else .ok (found.map p.join)

def read (t : FileTree) (p : Path) : Except FileFault (List UInt8) :=
  (t.locate p).bind fun
    | .outside => .error .isDirectory
    | .inside parts =>
      match t.kindAt? parts with
      | none => .error .missing
      | some kind =>
        if !t.allows .read parts then .error .denied
        else if kind = .directory then .error .isDirectory
        else .ok ((t.files.lookup parts).getD [])

/-! ### Writing -/

/-- What is done to a tree stays done if a later step fails. -/
abbrev Action := ExceptT FileFault (StateM FileTree)

/-- Where something new may be made. -/
def vacant (t : FileTree) (parts : List Text) : Except FileFault Unit :=
  if t.allows .write parts.dropLast then .ok () else .error .denied

def makeDirectory (t : FileTree) (p : Path) : Except FileFault FileTree :=
  (t.locate p).bind fun
    | .outside => .error .alreadyExists
    | .inside parts =>
      if (t.kindAt? parts).isSome then .error .alreadyExists
      else (t.vacant parts).map fun _ => t.addDirectory parts

/-- Make a directory unless it is there. -/
def ensureDirectory (p : Path) : Action Unit := do
  match (← get).makeDirectory p with
  | .ok t => set t
  | .error fault =>
    match (← get).stat p with
    | .ok .directory => return
    | _ => throw fault

/-- Make the directory of the first `count` components of a path, and those that it needs. -/
def ensureDirectories (p : Path) : (count : Nat) → Action Unit
  | 0 => ensureDirectory { p with parts := [] }
  | count + 1 =>
    let here : Path := { p with parts := p.parts.take (count + 1) }
    tryCatch (ensureDirectory here) fun fault => do
      if fault = .missing then
        ensureDirectories p count
        ensureDirectory here
      else throw fault

def putFile (t : FileTree) (p : Path) (bytes : List UInt8) : Except FileFault FileTree :=
  (t.locate p).bind fun
    | .outside => .error .isDirectory
    | .inside parts =>
      match t.kindAt? parts with
      | some .directory => .error .isDirectory
      | some .file => if t.allows .write parts then .ok (t.addFile parts bytes) else .error .denied
      | none => (t.vacant parts).map fun _ => t.addFile parts bytes

def write (p : Path) (bytes : List UInt8) : Action Unit := do
  ensureDirectories p p.parent.parts.length
  match (← get).putFile p bytes with
  | .ok t => set t
  | .error fault => throw fault

instance : FileStore (StateM FileTree) where
  stat p := return (← get).stat p
  below p := return (← get).below p
  read p := return (← get).read p
  write p bytes := (write p bytes).run

end FileTree

end CustomProperties
