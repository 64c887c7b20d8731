import Ordinance.Span

namespace Ordinance

inductive Category where
  | typeMismatch
  | undefinedName
  | arityMismatch
  | unsupportedOperator
  | internal
deriving DecidableEq

namespace Category

def all : List Category :=
  [typeMismatch, undefinedName, arityMismatch, unsupportedOperator, internal]

def name : Category → String
  | typeMismatch => "type_mismatch"
  | undefinedName => "undefined_name"
  | arityMismatch => "arity_mismatch"
  | unsupportedOperator => "unsupported_operator"
  | internal => "internal"

def code : Category → String
  | typeMismatch => "E0001"
  | undefinedName => "E0002"
  | arityMismatch => "E0003"
  | unsupportedOperator => "E0004"
  | internal => "E0900"

def description : Category → String
  | typeMismatch => "Expression type does not match the expected type."
  | undefinedName => "A referenced name is not declared."
  | arityMismatch => "A function or tuple was used with the wrong number of components."
  | unsupportedOperator => "The operator has no instance for the given operand kind."
  | internal => "An earlier compiler pass produced an unexpected construct."

def advice : Category → String
  | typeMismatch => "Convert one side explicitly, e.g. with integer_to_decimal."
  | undefinedName => "Declare the missing name or fix the spelling."
  | arityMismatch => "Pass exactly the declared number of arguments."
  | unsupportedOperator =>
      "Use a supported operand kind, e.g. subtract two dates to get a duration."
  | internal => "Report the program that triggered this error."

end Category

/-- A remark on a second place in the source. -/
structure Label where
  span : Span
  text : String
deriving DecidableEq

structure Diagnostic where
  category : Category
  code : Option String
  message : String
  span : Option Span
  labels : List Label
  help : Option String
deriving DecidableEq

namespace Diagnostic

def ofCategory (c : Category) (message : String) : Diagnostic where
  category := c
  code := some c.code
  message := message
  span := none
  labels := []
  help := none

def spot (d : Diagnostic) (s : Span) : Diagnostic := { d with span := some s }

def label (d : Diagnostic) (s : Span) (text : String) : Diagnostic :=
  { d with labels := d.labels ++ [⟨s, text⟩] }

def advise (d : Diagnostic) (text : String) : Diagnostic := { d with help := some text }

/-- The message under its code, then a line for every label and one for the help. -/
def render (d : Diagnostic) : String :=
  let head := match d.code with
    | some c => "error[" ++ c ++ "]: " ++ d.message
    | none => "error: " ++ d.message
  let labels := d.labels.map fun l =>
    "\n  --> " ++ l.span.file.repr ++ ":" ++ l.span.first.repr ++ ".." ++ l.span.last.repr ++ ": "
      ++ l.text
  let help := match d.help with
    | some h => "\n  help: " ++ h
    | none => ""
  head ++ String.join labels ++ help

/-- The diagnostics as a list under a heading, or the heading alone. -/
def report (heading : String) (ds : List Diagnostic) : String :=
  match ds with
  | [] => heading
  | ds => heading ++ ":\n" ++ "\n".intercalate (ds.map fun d => "  - " ++ d.render)

/-- The text of a failure: that of its first diagnostic. -/
def summary : List Diagnostic → String
  | [] => ""
  | d :: _ => d.render

end Diagnostic

end Ordinance
