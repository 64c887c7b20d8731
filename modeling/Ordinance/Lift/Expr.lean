import Ordinance.Dict
import Ordinance.Lift.Error
import Ordinance.Lift.Forms
import Ordinance.Lift.Type

namespace Ordinance

namespace Lift

/-- What a lifted variable holds: a payload, an option, or a scope. -/
inductive Mode where
  | payload
  | option
  | scope
deriving DecidableEq

structure Binding where
  target : Var
  mode : Mode
deriving DecidableEq

/-- The lifted variable for each variable in scope. -/
abbrev Ctx := Dict Var Binding

def Ctx.bind (ctx : Ctx) (v : Var) (mode : Mode) : Supply (Ctx × Var) := do
  let target ← v.refresh
  return (ctx.insert v ⟨target, mode⟩, target)

def Ctx.bindParams (ctx : Ctx) : List Var → Supply (Ctx × List Var)
  | [] => return (ctx, [])
  | v :: vs => do
      let (ctx, target) ← ctx.bind v .payload
      let (ctx, targets) ← Ctx.bindParams ctx vs
      return (ctx, target :: targets)

abbrev LiftM := ExceptT Error Supply

def fail {α : Type} (fault : Fault) (span : Span) : LiftM α := throw ⟨fault, span⟩

def Ctx.lookup (ctx : Ctx) (v : Var) (span : Span) : LiftM Binding :=
  match ctx.get? v with
  | some b => pure b
  | none => fail (.unbound v.render) span

/-- The variable that stands for a called scope, with what it is lifted to. -/
def Ctx.calledScope (ctx : Ctx) : Expr Mark → LiftM (Option (Var × Var))
  | .var v m => do
      let b ← ctx.lookup v m.span
      return if b.mode = .scope then some (v, b.target) else none
  | _ => return none

/-- Whether the call asks for a delayed value: its lifted form is the value. -/
def forces : Expr Mark → List (Expr Mark) → Bool
  | .lam [_] (.base .unit :: _) _ _, [.lit .unit _] => true
  | f, [.lit .unit _] => f.mark.ty.isThunk
  | _, _ => false

/-- The lifted call of a list operator on as many arguments as it takes. -/
def listCall (o : Op) (args : List (Expr Mark)) (span : Span) : LiftM (Expr Mark) :=
  match o, args with
  | .map, [f, xs] => map f xs span
  | .filter, [f, xs] => filter f xs span
  | .fold, [f, init, xs] => foldWith .fold f init xs span
  | .reduce, [f, init, xs] => foldWith .reduce f init xs span
  | o, _ => fail (.partialApplication o) span

end Lift

open Lift

mutual

/-- The expression over options: an empty value becomes `Absent`, any other value `v` becomes
`Present v`, and other exceptions stay exceptions. -/
def Expr.lift (ctx : Ctx) : Expr Mark → LiftM (Expr Mark)
  | .var v m => do
      let b ← ctx.lookup v m.span
      match b.mode with
      | .payload => return wrap (ref b.target m.span) m.span
      | .option => return ref b.target m.span
      | .scope => fail (.scopeOutsideCall v.render) m.span
  | .lit l m => return wrap (.lit l (.erased m.span)) m.span
  | .raise .empty m => return nothing m.span
  | .raise x m => return .raise x (.erased m.span)
  | .rescue body .empty handler m => do
      let body ← body.lift ctx
      let handler ← handler.lift ctx
      rescueEmpty body handler m.span
  | .rescue body x handler m => do
      let body ← body.lift ctx
      let handler ← handler.lift ctx
      return .rescue body x handler (.erased m.span)
  | .force e m => do
      let e ← e.lift ctx
      Lift.force e m.span
  | .lam [_] (.base .unit :: _) body _ => body.lift ctx
  | .lam params tys body m => do
      let (inner, targets) ← ctx.bindParams params
      let body ← body.lift inner
      return wrap (lambda targets (Ty.liftAll tys) body m.span) m.span
  | .default exceptions just cons m => do
      let exceptions ← Expr.liftAll ctx exceptions
      let just ← just.lift ctx
      let cons ← cons.lift ctx
      Lift.default exceptions just cons m.span
  | .app (.op .resolveDefault _) _ m => fail (.malformed "default handler in source program") m.span
  | .app (.op o _) args m =>
      if o.isHigherOrder then
        if args.length = o.arity then do
          let args ← Expr.liftAll ctx args
          listCall o args m.span
        else fail (.partialApplication o) m.span
      else do
        let args ← Expr.liftAll ctx args
        mapAll (.op o (.erased m.span)) args m.span
  | .app f args m => do
      match ← ctx.calledScope f with
      | some (v, target) =>
          match args with
          | [.record struct fields k] =>
              let fields ← Expr.liftNamed ctx fields
              return scopeCall target struct fields k.span m.span
          | _ => fail (.scopeCallShape v.render) m.span
      | none =>
          if forces f args then f.lift ctx
          else
            let f ← f.lift ctx
            let args ← Expr.liftAll ctx args
            call f args m.span
  | .tuple es m => do
      let es ← Expr.liftAll ctx es
      Lift.tuple es m.span
  | .component e index size m => do
      let e ← e.lift ctx
      Lift.component e index size m.span
  | .record struct fields m => do
      let fields ← Expr.liftNamed ctx fields
      Lift.record struct fields m.span
  | .field e struct name m => do
      let e ← e.lift ctx
      Lift.field e struct name m.span
  | .inject enum ctor e m => do
      let e ← e.lift ctx
      Lift.inject enum ctor e m.span
  | .switch e enum cases m => do
      let e ← e.lift ctx
      let cases ← Expr.liftCases ctx cases
      Lift.switch e enum cases m.span
  | .array es m => do
      let es ← Expr.liftAll ctx es
      Lift.array es m.span
  | .ite cond yes no m => do
      let cond ← cond.lift ctx
      let yes ← yes.lift ctx
      let no ← no.lift ctx
      Lift.ite cond yes no m.span
  | .assert e m => do
      let e ← e.lift ctx
      Lift.assert e m.span
  | .op o m =>
      if o.isHigherOrder || o == .resolveDefault then fail (.unliftable o) m.span
      else operator o m.span
  | .location l m => fail (.location l.render) m.span

def Expr.liftAll (ctx : Ctx) : List (Expr Mark) → LiftM (List (Expr Mark))
  | [] => return []
  | e :: es => do
      let e ← e.lift ctx
      let es ← Expr.liftAll ctx es
      return e :: es

def Expr.liftNamed (ctx : Ctx) : List (String × Expr Mark) → LiftM (List (String × Expr Mark))
  | [] => return []
  | (name, e) :: es => do
      let e ← e.lift ctx
      let es ← Expr.liftNamed ctx es
      return (name, e) :: es

/-- A case stays a function of the payload, which is not an option. -/
def Expr.liftCases (ctx : Ctx) : List (String × Expr Mark) → LiftM (List (String × Expr Mark))
  | [] => return []
  | (name, .lam [v] tys body m) :: es => do
      let (inner, target) ← ctx.bind v .payload
      let body ← body.lift inner
      let es ← Expr.liftCases ctx es
      return (name, lambda [target] (Ty.liftAll tys) body m.span) :: es
  | (_, .lam vs _ _ m) :: _ =>
      fail (.malformed ("match case binds " ++ vs.length.repr ++ " variables")) m.span
  | (_, e) :: _ => fail (.malformed "match case is not an abstraction") e.mark.span

end

end Ordinance
