import CustomProperties.Syntax.Lexer

/-! # Nodes

Lexemes are grouped by brackets. Only the innermost open block can be closed; a closing bracket
that does not close it stands for itself, and the end of the text closes all open blocks.
-/

namespace CustomProperties.Syntax

inductive Node
  | token (place : Text) (token : Token)
  | block (place : Text) (bracket : Bracket) (content : List Node)
  | function (place : Text) (name : Text) (arguments : List Node)
  deriving Repr

namespace Node

def place : Node → Text
  | token p _ => p
  | block p _ _ => p
  | function p _ _ => p

def isBlank : Node → Bool
  | token _ (.whitespace _) => true
  | _ => false

/-- Whitespace and comments separate and mean nothing. -/
def isFiller : Node → Bool
  | token _ (.whitespace _) => true
  | token _ (.comment _) => true
  | _ => false

def isLiteral (text : Text) : Node → Bool
  | token _ (.literal t) => t == text
  | _ => false

/-- The content of a block in curly brackets. -/
def body? : Node → Option (List Node)
  | block _ .curly content => some content
  | _ => none

end Node

/-- A block that is still open, with the nodes before it, the last one first. -/
structure Frame where
  place : Text
  opener : Opener
  before : List Node
  deriving Repr

namespace Frame

/-- The nodes up to the end of the block, whose content is given with its last node first. -/
def close (f : Frame) (content : List Node) : List Node :=
  match f.opener with
  | .bracket b => .block f.place b content.reverse :: f.before
  | .function name => .function f.place name content.reverse :: f.before

def closeAll : List Frame → List Node → List Node
  | [], done => done.reverse
  | f :: frames, content => closeAll frames (f.close content)

end Frame

namespace Node

def groupOnto : List Frame → List Node → List Lexeme → List Node
  | frames, done, [] => Frame.closeAll frames done
  | frames, done, ⟨place, .token t⟩ :: ls => groupOnto frames (.token place t :: done) ls
  | frames, done, ⟨place, .opening o⟩ :: ls => groupOnto (⟨place, o, done⟩ :: frames) [] ls
  | [], done, ⟨place, .closing b⟩ :: ls => groupOnto [] (.token place (.stray b) :: done) ls
  | f :: frames, done, ⟨place, .closing b⟩ :: ls =>
    if f.opener.closer = b then groupOnto frames (f.close done) ls
    else groupOnto (f :: frames) (.token place (.stray b) :: done) ls

/-- The nodes of a standardized text. -/
def readAll (t : Text) : List Node := groupOnto [] [] (Lexeme.readAll t)

end Node

end CustomProperties.Syntax
