import CustomProperties.Sheet.Basic

/-! # Written sheets

Sheets are written without any blank that is not part of a name, a selector or a value. A style
rule without declarations is left out, whatever comments it holds.
-/

namespace CustomProperties

/-- Entries after a body that ended in a declaration, or that had none so far. -/
def Body.writeFrom (separated : Bool) : Body → Text
  | [] => []
  | .comment text :: b => "/*" ++ text ++ "*/" ++ writeFrom separated b
  | .declaration d :: b =>
    (if separated then [';'] else []) ++ d.property ++ [':'] ++ d.value ++ writeFrom true b

def Body.write (b : Body) : Text := Body.writeFrom false b

/-- A block in curly brackets. -/
def inBraces (t : Text) : Text := ['\x7b'] ++ t ++ ['\x7d']

def commaSeparated (parts : List Text) : Text := [','].intercalate parts

def Stage.write : Stage → Text
  | .keyframe selectors body => commaSeparated selectors ++ inBraces body.write
  | .comment text => "/*" ++ text ++ "*/"

namespace Rule

mutual

def write : Rule → Text
  | comment text => "/*" ++ text ++ "*/"
  | style selectors body =>
    if body.any Entry.isDeclaration then commaSeparated selectors ++ inBraces (Body.write body) else []
  | container keyword condition rules =>
    ['@'] ++ keyword ++ (if condition.isEmpty then [] else ' ' :: condition) ++
      inBraces (writeAll rules)
  | keyframes name vendor stages =>
    ['@'] ++ vendor ++ "keyframes " ++ name ++ inBraces (stages.flatMap Stage.write)
  | fontFace body => "@font-face" ++ inBraces (Body.write body)
  | unknown raw => raw
  | keyframe _ _ => []

def writeAll : List Rule → Text
  | [] => []
  | r :: rs => r.write ++ writeAll rs

end

mutual

/-- Whether a keyframe stands where a rule is expected. -/
def hasStrayKeyframe : Rule → Bool
  | keyframe _ _ => true
  | container _ _ rules => anyStrayKeyframe rules
  | _ => false

def anyStrayKeyframe : List Rule → Bool
  | [] => false
  | r :: rs => r.hasStrayKeyframe || anyStrayKeyframe rs

end

end Rule

namespace Sheet

/-- Why a sheet cannot be written. -/
inductive WriteError
  | strayKeyframe
  deriving DecidableEq, Repr

def WriteError.message : WriteError → Text
  | strayKeyframe => "cannot serialize Keyframe"

def text (s : Sheet) : Text := Rule.writeAll s

def write (s : Sheet) : Except WriteError Text :=
  if Rule.anyStrayKeyframe s then .error .strayKeyframe else .ok s.text

end Sheet

end CustomProperties
