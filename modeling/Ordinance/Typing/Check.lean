import Ordinance.Program
import Ordinance.Typing.Elaborate

namespace Ordinance

open Typing

/-- The expression with the types found for its nodes. -/
def Expr.synthesize (decls : Decls) (env : Env) (e : Expr Mark) : Except Error (Expr Mark) := do
  let (e, s) ← (elaborate decls env ∅ none e).run (.empty false)
  return Pending.finish s e

/-- The same, of an expression that is to have the type `t`. -/
def Expr.check (decls : Decls) (env : Env) (e : Expr Mark) (t : Ty) :
    Except Error (Expr Mark) := do
  let (e, s) ← (do
    let c ← load t e.mark.span
    elaborate decls env ∅ (some c) e).run (.empty false)
  return Pending.finish s e

/-- A definition is known to later items by the type that it is found to have. -/
def Definition.check (decls : Decls) (env : Env) (d : Definition Mark) :
    TypeM (Definition Mark × Env) := do
  let c ← load d.ty d.span
  let e ← elaborate decls env ∅ (some c) d.expr
  let s ← get
  let t := s.resolve c
  return ({ d with ty := t, expr := Pending.finish s e }, env.bindVar d.var t)

/-- A local definition before its classes are read back. -/
structure Typing.PendingLet where
  source : ScopeLet Mark
  expr : Expr Pending

def Typing.PendingLet.finish (s : Store) (l : PendingLet) : ScopeLet Mark :=
  { l.source with ty := s.resolve l.expr.mark.cls, expr := Pending.finish s l.expr }

/-- Every local definition sees those before it. A variable of the scope is also known by its name,
by what its type is when it is defined. -/
def Typing.elaborateLets (decls : Decls) (env : Env) (locals : Locals) :
    List (ScopeLet Mark) → TypeM (List PendingLet × Env × Locals)
  | [] => return ([], env, locals)
  | l :: ls => do
      let c ← load l.ty l.span
      let e ← elaborate decls env locals (some c) l.expr
      let t := (← get).resolve c
      let env := if l.role = .definition then env.bindScopeVar l.var.name t else env
      let (ls, env, locals) ← elaborateLets decls env (locals.insert l.var c) ls
      return (⟨l, e⟩ :: ls, env, locals)

def ScopeBody.check (decls : Decls) (env : Env) (b : ScopeBody Mark) (span : Span) :
    TypeM (ScopeBody Mark) := do
  let _ ← resolved (decls.structs.get? b.input) .struct b.input span
  let _ ← resolved (decls.structs.get? b.output) .struct b.output span
  let input ← alloc (.struct b.input) span
  let (lets, env, locals) ←
    elaborateLets decls env (Dict.insert ∅ b.inputVar input) b.lets
  let output ← alloc (.struct b.output) span
  let result ← elaborate decls env locals (some output) b.result
  let s ← get
  return { b with lets := lets.map (·.finish s), result := Pending.finish s result }

/-- A scope is known to later items as a function, and by the fields of its output. -/
def Scope.check (decls : Decls) (env : Env) (s : Scope Mark) : TypeM (Scope Mark × Env) := do
  let body ← s.body.check decls env s.span
  let outputs := (decls.structs.get? s.body.output).getD ∅
  return ({ s with body := body }, (env.bindVar s.var s.ty).bindScope s.name outputs)

def Item.check (decls : Decls) (env : Env) : Item Mark → TypeM (Item Mark × Env)
  | .definition d => do
      let (d, env) ← d.check decls env
      return (.definition d, env)
  | .scope s => do
      let (s, env) ← s.check decls env
      return (.scope s, env)

/-- Items in order, each with a store of its own; the steps of all of them are kept in order. -/
def Typing.checkItems (decls : Decls) (tracing : Bool) (env : Env) :
    List (Item Mark) → Except Error (List (Item Mark) × Env × List Step)
  | [] => return ([], env, [])
  | i :: is => do
      let ((i, env), s) ← (i.check decls env).run (.empty tracing)
      let (is, env, steps) ← checkItems decls tracing env is
      return (i :: is, env, s.trace.toList ++ steps)

/-- A program with its types, what a next item would see, and the steps of unification. -/
structure CheckedProgram where
  program : Program Mark
  env : Env
  trace : List Step

def Program.check (p : Program Mark) (tracing : Bool) : Except Error CheckedProgram := do
  let (items, env, trace) ← checkItems p.decls tracing .empty p.items
  return ⟨{ p with items := items }, env, trace⟩

end Ordinance
