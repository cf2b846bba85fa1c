import CustomProperties.Syntax.Node

/-! # Written nodes

Nodes are written one after the other. Where two neighbours would be read back as something else
an empty comment stands between them, and after a backslash a line break.
-/

namespace CustomProperties.Syntax

/-- What matters of a node to its neighbours. -/
inductive Kind
  | ident
  | function
  | url
  | number
  | percentage
  | dimension
  | codeRange
  | atKeyword
  | hash
  | parens
  | literal (text : Text)
  | other
  deriving DecidableEq, Repr

namespace Kind

/-- Kinds that a following name or number would extend. -/
def isOpenEnded : Kind → Bool
  | ident | atKeyword | hash | dimension | number => true
  | literal t => t == ['#'] || t == ['-']
  | _ => false

def isNamed : Kind → Bool
  | ident | function | url => true
  | _ => false

def isNumeric : Kind → Bool
  | number | percentage | dimension => true
  | _ => false

/-- Kinds that end in a name. -/
def endsInName : Kind → Bool
  | ident | atKeyword | hash | dimension => true
  | _ => false

def isLiteral (texts : List Text) : Kind → Bool
  | literal t => texts.contains t
  | _ => false

/-- Whether two neighbours need a comment between them. -/
def clash (a b : Kind) : Bool :=
  (a.isOpenEnded && (b.isNamed || b.isNumeric || b == codeRange)) ||
  (a.endsInName && b.isLiteral ["-", "-->"]) ||
  ((a == codeRange || a.isLiteral [".", "+"]) && b.isNumeric) ||
  (a.isLiteral ["@"] && (b.isNamed || b == codeRange || b.isLiteral ["-"])) ||
  (a == codeRange && (b == ident || b == function || b.isLiteral ["?"])) ||
  (a.isLiteral ["$", "*", "^", "~", "|"] && b.isLiteral ["="]) ||
  (a == ident && b == parens) ||
  (a.isLiteral ["|"] && b.isLiteral ["|"]) ||
  (a.isLiteral ["/"] && b.isLiteral ["*"])

end Kind

def Token.kind : Token → Kind
  | .ident _ => .ident
  | .url _ _ => .url
  | .number _ => .number
  | .percentage _ => .percentage
  | .dimension _ _ => .dimension
  | .codeRange _ => .codeRange
  | .atKeyword _ => .atKeyword
  | .hash _ _ => .hash
  | .literal text => .literal text
  | _ => .other

namespace Node

def kind : Node → Kind
  | token _ t => t.kind
  | block _ .round _ => .parens
  | block _ _ _ => .other
  | function _ _ _ => .function

/-- Whether a node is whitespace that starts with a line break. -/
def startsWithBreak : Node → Bool
  | token _ (.whitespace ('\n' :: _)) => true
  | _ => false

/-- What is written between two neighbours. -/
def between : Option Kind → Node → Text
  | none, _ => []
  | some a, b =>
    if a.clash b.kind then "/**/"
    else if a = .literal ['\\'] ∧ !b.startsWithBreak then ['\n']
    else []

mutual

/-- Whether a function ends in a string that the end of the text cut off. -/
def isCutOff : Node → Bool
  | token _ (.string _ false) => true
  | function _ _ arguments => lastIsCutOff arguments
  | _ => false

def lastIsCutOff : List Node → Bool
  | [] => false
  | [n] => n.isCutOff
  | _ :: ns => lastIsCutOff ns

end

mutual

def write : Node → Text
  | token _ t => t.write
  | block _ b content => b.opening :: (writeFrom none content ++ [b.closing])
  | function _ name arguments =>
    writeIdent name ++ '(' ::
      (writeFrom none arguments ++ if lastIsCutOff arguments then [] else [')'])

/-- Write the nodes that follow one of kind `previous`. -/
def writeFrom : (previous : Option Kind) → List Node → Text
  | _, [] => []
  | previous, n :: ns => between previous n ++ n.write ++ writeFrom (some n.kind) ns

end

def writeAll (ns : List Node) : Text := writeFrom none ns

end Node

end CustomProperties.Syntax
