import CustomProperties.Position
import CustomProperties.Sheet.Basic
import CustomProperties.Syntax.Item
import CustomProperties.Syntax.Written

/-! # Reading sheets

Items become rules by their keyword. Selectors, conditions and values are the written form of
their nodes. The first fault in document order is the error of the whole sheet. Before any of it the
text is cut into lexemes, which breaks off at an integer of too many digits.
-/

namespace CustomProperties

open Syntax

namespace Sheet

/-- A fault and the text from where it was found. -/
structure Failure where
  place : Text
  fault : Fault
  deriving DecidableEq, Repr

def Failure.error (source : Text) (f : Failure) : ParseError :=
  .ofPosition f.fault.reason source (.ofRest (standardize source) f.place)

/-- The first line of a text whose only line break, if any, ends it. -/
def onlyLine? (t : Text) : Option Text :=
  let line := t.takeWhile (· ≠ '\n')
  let rest := t.dropWhile (· ≠ '\n')
  if line ≠ [] ∧ (rest = [] ∨ rest = ['\n']) then some line else none

/-- The vendor part `-name-` of a keyword, and what follows it. -/
def vendorPart? : Text → Option (Text × Text)
  | '-' :: t =>
    let name := t.takeWhile fun c => 'a' ≤ c && c ≤ 'z'
    match t.drop name.length with
    | '-' :: rest => if name = [] then none else some ('-' :: name ++ ['-'], rest)
    | _ => none
  | _ => none

/-- The vendor part of a keyword, empty if there is none, and its own name. -/
def splitVendor (keyword : Text) : Text × Text :=
  let whole : Text × Text := ([], (onlyLine? keyword).getD keyword)
  match vendorPart? keyword with
  | none => whole
  | some (vendor, rest) =>
    match onlyLine? rest with
    | some name => (vendor, name)
    | none => whole

/-- The names of the rules that contain rules. -/
def containerNames : List Text :=
  ["media", "supports", "document", "host", "container", "layer", "scope", "starting-style"]

def writtenText (ns : List Node) : Text := Text.strip (Node.writeAll ns)

def selectors (prelude : List Node) : List Text := Split.commaList (writtenText prelude)

/-- The text of a rule that is kept as written. -/
def rawText (keyword : Text) (prelude : List Node) (content : Option (List Node)) : Text :=
  Text.strip ('@' :: writeIdent keyword ++ Node.writeAll prelude ++
    match content with
    | none => [';']
    | some content => '\x7b' :: Node.writeAll content ++ ['\x7d'])

def valueText (value : List Node) (important : Bool) : Text :=
  if important then writtenText value ++ " !important" else writtenText value

/-- The body that the content of a rule holds. -/
def readBody (ns : List Node) : Except Failure Body :=
  match _ : Item.nextDeclaration? ns with
  | none => .ok []
  | some (item, rest) =>
    match item with
    | .declaration name value important =>
      (readBody rest).map (.declaration ⟨name, valueText value important⟩ :: ·)
    | .item (.comment text) => (readBody rest).map (.comment text :: ·)
    | .item (.fault place fault) => .error ⟨place, fault⟩
    | .item (.atRule place _ _ _) => .error ⟨place, .nestedRule⟩
    | .item (.rule place _ _) => .error ⟨place, .nestedRule⟩
termination_by ns.length
decreasing_by all_goals exact Item.length_nextDeclaration? ‹_›

/-- The stages of a keyframes rule. -/
def readStages (ns : List Node) : Except Failure (List Stage) :=
  match _ : Item.nextRule? false ns with
  | none => .ok []
  | some (item, rest) =>
    match item with
    | .comment text => (readStages rest).map (.comment text :: ·)
    | .rule _ prelude content =>
      (readBody content).bind fun body =>
        (readStages rest).map (.keyframe (selectors prelude) body :: ·)
    | .atRule place keyword _ _ => .error ⟨place, .ruleInKeyframes keyword⟩
    | .fault place fault => .error ⟨place, fault⟩
termination_by ns.length
decreasing_by all_goals exact Item.length_nextRule? ‹_›

/-- What an at-rule is, by its keyword. -/
inductive Role
  | keyframes (vendor : Text)
  | fontFace
  | container
  | unknown
  deriving DecidableEq, Repr

def Role.ofKeyword (keyword : Text) : Role :=
  let (vendor, name) := splitVendor keyword
  if name = "keyframes" then .keyframes vendor
  else if keyword = "font-face" then .fontFace
  else if name ∈ containerNames then .container
  else .unknown

/-- The rules of a list of nodes, which is a whole sheet or the content of a container. -/
def readRules (whole : Bool) (ns : List Node) : Except Failure (List Rule) :=
  match _ : Item.nextRule? whole ns with
  | none => .ok []
  | some (item, rest) =>
    let first : Except Failure Rule :=
      match item with
      | .comment text => .ok (.comment text)
      | .fault place fault => .error ⟨place, fault⟩
      | .rule _ prelude content => (readBody content).map (.style (selectors prelude))
      | .atRule _ keyword prelude none => .ok (.unknown (rawText keyword prelude none))
      | .atRule _ keyword prelude (some content) =>
        let name := Text.lowerAscii keyword
        match Role.ofKeyword name with
        | .keyframes vendor =>
          (readStages content).map (.keyframes (writtenText prelude) vendor)
        | .fontFace => (readBody content).map .fontFace
        | .container => (readRules false content).map (.container name (writtenText prelude))
        | .unknown => .ok (.unknown (rawText keyword prelude (some content)))
    first.bind fun rule => (readRules whole rest).map (rule :: ·)
termination_by sizeOf ns
decreasing_by
  · exact Item.sizeOf_content_nextRule? ‹_› rfl
  · exact Item.sizeOf_nextRule? ‹_›

/-- The sheet that a text denotes, whose integers may have any number of digits. -/
def read (source : Text) : Except ParseError Sheet :=
  (readRules true (Node.readAll (standardize source))).mapError (Failure.error source)

/-- The first integer of a text that has too many digits. -/
def longNumber? (source : Text) : Option Text.LongNumber :=
  (Lexeme.readAll (standardize source)).findSome? fun l => l.mark.longNumber?

/-- Why a text is not read: an error of the sheet is reported, or a number is not read. -/
inductive Unread
  | reported (error : ParseError)
  | number (number : Text.LongNumber)
  deriving DecidableEq, Repr

/-- The sheet that a text denotes, if its integers are read. -/
def readLimited (source : Text) : Except Unread Sheet :=
  match longNumber? source with
  | some number => .error (.number number)
  | none => (read source).mapError .reported

end Sheet

end CustomProperties
