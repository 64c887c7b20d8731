import Ordinance.Decls
import Ordinance.Expr.Traversal

namespace Ordinance

/-- What a local definition of a scope is for: it reads a field of the input, defines a variable of
the scope, prepares an input of a called scope, calls that scope, reads a field of its result, or
asserts. -/
inductive LetRole where
  | input
  | definition
  | callInput
  | call
  | callResult
  | assertion
deriving DecidableEq

structure ScopeLet (μ : Type) where
  var : Var
  role : LetRole
  ty : Ty
  expr : Expr μ
  span : Span

/-- A function from the input record to the output record, through local definitions in order. -/
structure ScopeBody (μ : Type) where
  inputVar : Var
  input : String
  output : String
  lets : List (ScopeLet μ)
  result : Expr μ

structure Definition (μ : Type) where
  var : Var
  ty : Ty
  expr : Expr μ
  span : Span

structure Scope (μ : Type) where
  name : String
  var : Var
  body : ScopeBody μ
  span : Span

inductive Item (μ : Type) where
  | definition (d : Definition μ)
  | scope (s : Scope μ)

/-- The items stand in order of dependency: each uses only those before it. -/
structure Program (μ : Type) where
  decls : Decls
  items : List (Item μ)

variable {μ : Type}

def Scope.ty (s : Scope μ) : Ty := .arrow [.struct s.body.input] (.struct s.body.output)

def Item.size : Item μ → Nat
  | .definition d => d.expr.size
  | .scope s => s.body.lets.foldr (fun l n => l.expr.size + n) s.body.result.size

def Program.size (p : Program μ) : Nat := p.items.foldr (fun i n => i.size + n) 0

end Ordinance
