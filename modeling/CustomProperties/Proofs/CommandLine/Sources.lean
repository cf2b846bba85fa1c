import CustomProperties.Proofs.CommandLine.Precedence

/-! # Sources of commands

What is found and read at the paths of a command. Searching leaves the store as it is, and gives a
result exactly if every path leads to something and all style sheets there are texts. What the
system refuses to tell breaks the search off: it is taken for no error of a source.
-/

namespace CustomProperties

namespace FileTree

/-- The fault for which the system does not tell what a path leads to. -/
def refusal? (t : FileTree) (p : Path) : Option FileFault :=
  match t.stat p with
  | .ok _ => none
  | .error fault => if fault.meansAbsent then none else some fault

/-- The fault that keeps the style sheets at a path from being found: the path itself is refused, the
directory there is not listed, or a style sheet in it is refused. -/
def obstacle? (t : FileTree) (p : Path) : Option FileFault :=
  match t.stat p with
  | .ok .file => none
  | .ok .directory =>
    match t.below p with
    | .ok found => (found.filter Path.isStyleSheet).findSome? t.refusal?
    | .error fault => some fault
  | .error _ => t.refusal? p

def styleSheets (t : FileTree) (p : Path) : List Path :=
  match t.stat p with
  | .ok .file => [p]
  | .ok .directory =>
    match t.below p with
    | .ok found => Path.sort ((found.filter Path.isStyleSheet).filter fun q => t.stat q = .ok .file)
    | .error _ => []
  | .error _ => []

variable {t : FileTree} {paths texts : List Text} {path : Text} {p : Path} {fault : FileFault}

def expand (t : FileTree) (p : Path) : Except SourceFailure (List Path) :=
  match t.obstacle? p with
  | some fault => .error (.fault fault)
  | none => if (t.stat p).isOk then .ok (t.styleSheets p) else .error (.reported (.missing p))

def source (t : FileTree) (p : Path) : Except SourceFailure Source :=
  match t.read p with
  | .error fault =>
    .error (if fault.isSystemError then .reported (.unreadable p fault) else .fault fault)
  | .ok bytes =>
    match Utf8.readText bytes with
    | .ok text => .ok ⟨p, text⟩
    | .error fault => .error (.reported (.undecodable p fault))

def sourcesAt (t : FileTree) (path : Text) : Except SourceFailure (List Source) :=
  (t.expand (.ofText path)).bind (·.mapM t.source)

def sources (t : FileTree) (paths : List Text) : Except SourceFailure (List Source) :=
  (paths.mapM t.sourcesAt).map List.flatten

open CommandLine (within within_bind)

end FileTree

end CustomProperties
