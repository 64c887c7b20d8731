import Ordinance.Diagnostic
import Ordinance.Op.Basic
import Ordinance.Store.Unify

namespace Ordinance

inductive NameKind where
  | variable
  | scopeVariable
  | subScopeVariable
  | scope
  | struct
  | field
  | enum
  | constructor
deriving DecidableEq

def NameKind.name : NameKind → String
  | .variable => "variable"
  | .scopeVariable => "scope variable"
  | .subScopeVariable => "sub-scope variable"
  | .scope => "scope"
  | .struct => "struct"
  | .field => "field"
  | .enum => "enum"
  | .constructor => "constructor"

namespace Typing

/-- Why an expression has no type. -/
inductive Fault where
  | mismatch (m : Mismatch)
  | unresolved (kind : NameKind) (name : String)
  | arity (what : String) (expected got : Nat)
  | unsupported (o : Op)
  | internal (text : String)
deriving DecidableEq

/-- A fault, and the expression in which it came up. -/
structure Error where
  fault : Fault
  span : Span
deriving DecidableEq

def Fault.message : Fault → String
  | mismatch m =>
      if m.infinite then
        "cannot construct the infinite type " ++ m.expected.ty.render ++ " = " ++ m.actual.ty.render
      else
        "type mismatch: expected " ++ m.expected.ty.render ++ ", found " ++ m.actual.ty.render
  | unresolved kind name => "unknown " ++ kind.name ++ " `" ++ name ++ "`"
  | arity what expected got => what ++ ": expected " ++ expected.repr ++ ", found " ++ got.repr
  | unsupported o => "operator `" ++ o.render ++ "` is not available"
  | internal text => "internal error: " ++ text

def Fault.category : Fault → Category
  | mismatch _ => .typeMismatch
  | unresolved _ _ => .undefinedName
  | arity _ _ _ => .arityMismatch
  | unsupported _ => .unsupportedOperator
  | internal _ => .internal

namespace Error

/-- Adds a label unless no source text stands at its place. -/
def remark (d : Diagnostic) (side : Side) (text : String) : Diagnostic :=
  if side.span.isSynthetic then d else d.label side.span (side.ty.render ++ text)

def diagnostic (e : Error) : Diagnostic :=
  let d := (Diagnostic.ofCategory e.fault.category e.fault.message).spot e.span
  match e.fault with
  | .mismatch m =>
      remark (remark d m.expected " expected because of this") m.actual " comes from here"
  | .unsupported (.mul _) | .unsupported (.div _) | .unsupported (.minus _) =>
      d.advise "dates support addition of a duration and subtraction of a date"
  | .internal _ => d.advise Category.internal.advice
  | .unresolved _ _ | .arity _ _ _ | .unsupported _ => d

end Error

end Typing

end Ordinance
