import CustomProperties.Files.Store

/-! # Sources

The style sheets that paths name. A directory stands for all style sheets below it, in order.
-/

namespace CustomProperties

structure Source where
  path : Path
  text : Text
  deriving DecidableEq, Repr

inductive SourceError
  | missing (path : Path)
  | unreadable (path : Path) (fault : FileFault)
  | undecodable (path : Path) (fault : Utf8.Fault)
  deriving DecidableEq, Repr

def SourceError.message : SourceError → Text
  | missing path => "CSS source does not exist: " ++ path.text
  | unreadable path fault => "Cannot read CSS source " ++ path.text ++ ": " ++ fault.message path
  | undecodable path fault => "Cannot read CSS source " ++ path.text ++ ": " ++ fault.message

/-- What ends the search for sources: an error of a source, or a fault that is taken for none. -/
inductive SourceFailure
  | reported (error : SourceError)
  | fault (fault : FileFault)
  deriving DecidableEq, Repr

namespace Source

variable {m : Type → Type} [Monad m] [FileStore m]

/-- Whether a path leads to something of this kind. The system may refuse to tell. -/
def hasKind (kind : FileKind) (p : Path) : ExceptT SourceFailure m Bool := do
  match ← (FileStore.stat p : m (Except FileFault FileKind)) with
  | .ok k => return k = kind
  | .error fault => if fault.meansAbsent then return false else throw (.fault fault)

/-- The style sheets below a directory. -/
def below (p : Path) : ExceptT SourceFailure m (List Path) := do
  match ← (FileStore.below p : m (Except FileFault (List Path))) with
  | .ok found => return Path.sort (← (found.filter Path.isStyleSheet).filterM (hasKind .file))
  | .error fault => throw (.fault fault)

/-- The files that a path names. -/
def expand (p : Path) : ExceptT SourceFailure m (List Path) := do
  if ← hasKind .directory p then below p
  else if ← hasKind .file p then return [p]
  else throw (.reported (.missing p))

def read (p : Path) : ExceptT SourceFailure m Source := do
  match ← (FileStore.read p : m (Except FileFault (List UInt8))) with
  | .error fault =>
    throw (if fault.isSystemError then .reported (.unreadable p fault) else .fault fault)
  | .ok bytes =>
    match Utf8.readText bytes with
    | .ok text => return ⟨p, text⟩
    | .error fault => throw (.reported (.undecodable p fault))

/-- The sources of one path after the other. -/
def collect (paths : List Text) : ExceptT SourceFailure m (List Source) := do
  let groups ← paths.mapM fun t => do (← expand (.ofText t)).mapM read
  return groups.flatten

end Source

end CustomProperties
