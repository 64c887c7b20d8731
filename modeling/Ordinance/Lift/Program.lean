import Ordinance.Lift.Expr
import Ordinance.Program

namespace Ordinance

open Lift

/-- A prepared input of a called scope is either forced, and then passed as a payload, or delayed,
and then passed as an option. -/
def Lift.letExpr (ctx : Ctx) (l : ScopeLet Mark) : LiftM (Expr Mark × Mode) :=
  match l.role, l.expr with
  | .callInput, .force e m => do
      let e ← e.lift ctx
      return (← unwrap e m.span, .payload)
  | .callInput, .lam [_] (.base .unit :: _) body _ => do
      let e ← body.lift ctx
      return (e, .option)
  | .callInput, _ =>
      fail (.malformed ("sub-scope input `" ++ l.var.render ++ "` is neither forced nor a thunk"))
        l.span
  | _, e => do
      let e ← e.lift ctx
      return (e, .option)

def ScopeLet.lift (ctx : Ctx) (l : ScopeLet Mark) : LiftM (Ctx × ScopeLet Mark) := do
  let (e, mode) ← letExpr ctx l
  let (ctx, target) ← ctx.bind l.var mode
  return (ctx, { l with var := target, ty := .any, expr := e })

def Lift.lets (ctx : Ctx) : List (ScopeLet Mark) → LiftM (Ctx × List (ScopeLet Mark))
  | [] => return (ctx, [])
  | l :: ls => do
      let (ctx, l) ← l.lift ctx
      let (ctx, ls) ← lets ctx ls
      return (ctx, l :: ls)

/-- The fields of the output are options, so the values in the result stand as they are. -/
def Lift.result (ctx : Ctx) : Expr Mark → LiftM (Expr Mark)
  | .record struct fields m => do
      let fields ← Expr.liftNamed ctx fields
      return .record struct fields (.erased m.span)
  | e => fail (.malformed "scope result is not a record literal") e.mark.span

def ScopeBody.lift (ctx : Ctx) (b : ScopeBody Mark) : LiftM (ScopeBody Mark) := do
  let (ctx, inputVar) ← ctx.bind b.inputVar .payload
  let (ctx, ls) ← Lift.lets ctx b.lets
  let result ← Lift.result ctx b.result
  return { b with inputVar := inputVar, lets := ls, result := result }

def Item.lift (ctx : Ctx) : Item Mark → LiftM (Ctx × Item Mark)
  | .definition d => do
      let e ← d.expr.lift ctx
      let (ctx, target) ← ctx.bind d.var .option
      return (ctx, .definition { d with var := target, ty := .any, expr := e })
  | .scope s => do
      let body ← s.body.lift ctx
      let (ctx, target) ← ctx.bind s.var .scope
      return (ctx, .scope { s with var := target, body := body })

def Lift.items (ctx : Ctx) : List (Item Mark) → LiftM (List (Item Mark))
  | [] => return []
  | i :: is => do
      let (ctx, i) ← i.lift ctx
      let is ← items ctx is
      return i :: is

def Program.lift (p : Program Mark) : LiftM (Program Mark) := do
  let items ← Lift.items ∅ p.items
  return ⟨p.decls.lift, items⟩

end Ordinance
