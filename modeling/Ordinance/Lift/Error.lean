import Ordinance.Diagnostic
import Ordinance.Op.Basic

namespace Ordinance.Lift

/-- Why an expression has no lifted form. A type alone does not rule these out: a list operator that
is not applied has one. -/
inductive Fault where
  | unbound (var : String)
  | scopeOutsideCall (var : String)
  | scopeCallShape (var : String)
  | partialApplication (o : Op)
  | unliftable (o : Op)
  | location (text : String)
  | malformed (text : String)
deriving DecidableEq

structure Error where
  fault : Fault
  span : Span
deriving DecidableEq

def Fault.message : Fault → String
  | unbound v => "variable `" ++ v ++ "` is not bound during translation"
  | scopeOutsideCall v => "scope `" ++ v ++ "` used outside of a scope call"
  | scopeCallShape v => "scope `" ++ v ++ "` must be called on a single input record literal"
  | partialApplication o => "list operator `" ++ o.render ++ "` is partially applied"
  | unliftable o => "operator `" ++ o.render ++ "` cannot be used as a value"
  | location text => "location `" ++ text ++ "` survived to translation"
  | malformed text => text

def Error.diagnostic (e : Error) : Diagnostic :=
  let d := (Diagnostic.ofCategory .internal ("internal error: " ++ e.fault.message)).advise
    Category.internal.advice
  if e.span.isSynthetic then d else d.spot e.span

end Ordinance.Lift
