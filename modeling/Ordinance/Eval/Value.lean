import Ordinance.Program

namespace Ordinance

/-- Values. A function keeps the variables it was made under, and so does a scope. -/
inductive Value where
  | bool (b : Bool)
  | int (n : Int64)
  | money (cents : Int64)
  | unit
  | tuple (items : List Value)
  | record (struct : String) (fields : List (String × Value))
  | inject (enum ctor : String) (payload : Value)
  | array (items : List Value)
  | closure (params : List Var) (body : Expr Mark) (env : List (Var × Value))
  | op (o : Op)
  | scope (body : ScopeBody Mark) (env : List (Var × Value))

namespace Value

def present (v : Value) : Value := inject Optional.enum Optional.present v

def absent : Value := inject Optional.enum Optional.absent unit

/-- The payload of a present option. -/
def payload? : Value → Option Value
  | inject enum ctor v => if enum = Optional.enum ∧ ctor = Optional.present then some v else none
  | _ => none

/-- The text of a scope body, which tells it from any other. -/
def scopeText (b : ScopeBody Mark) :=
  (b.inputVar, b.input, b.output, b.result.nodes,
    b.lets.map fun l => (l.var, l.role, l.ty, l.expr.nodes, l.span))

mutual

/-- Equality of values. Functions are equal if they have the same text and the same variables. -/
def same : Value → Value → Bool
  | bool a, bool b => a == b
  | int a, int b => a == b
  | money a, money b => a == b
  | unit, unit => true
  | tuple vs, tuple ws => sameAll vs ws
  | record s fs, record t gs => s == t && sameNamed fs gs
  | inject n c v, inject m d w => n == m && c == d && same v w
  | array vs, array ws => sameAll vs ws
  | closure ps e vs, closure qs f ws => ps == qs && e.nodes == f.nodes && sameEnv vs ws
  | op o, op p => o == p
  | scope b vs, scope c ws => scopeText b == scopeText c && sameEnv vs ws
  | _, _ => false

def sameAll : List Value → List Value → Bool
  | [], [] => true
  | v :: vs, w :: ws => same v w && sameAll vs ws
  | _, _ => false

def sameNamed : List (String × Value) → List (String × Value) → Bool
  | [], [] => true
  | (n, v) :: vs, (m, w) :: ws => n == m && same v w && sameNamed vs ws
  | _, _ => false

def sameEnv : List (Var × Value) → List (Var × Value) → Bool
  | [], [] => true
  | (x, v) :: vs, (y, w) :: ws => x == y && same v w && sameEnv vs ws
  | _, _ => false

end

end Value

end Ordinance
