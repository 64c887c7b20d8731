import Ordinance.Decls
import Ordinance.Var

namespace Ordinance

/-- The types of what an item sees: earlier items, the variables of its scope so far, and the
variables that every earlier scope gives to its callers. -/
structure Env where
  vars : Dict Var Ty
  scopeVars : Dict String Ty
  scopes : Dict String Layout
deriving DecidableEq, Inhabited

namespace Env

def empty : Env := ⟨∅, ∅, ∅⟩

def bindVar (env : Env) (v : Var) (t : Ty) : Env := { env with vars := env.vars.insert v t }

def bindScopeVar (env : Env) (name : String) (t : Ty) : Env :=
  { env with scopeVars := env.scopeVars.insert name t }

def bindScope (env : Env) (name : String) (vars : Layout) : Env :=
  { env with scopes := env.scopes.insert name vars }

def var? (env : Env) (v : Var) : Option Ty := env.vars.get? v

def scopeVar? (env : Env) (name : String) : Option Ty := env.scopeVars.get? name

def subScopeVar? (env : Env) (scope name : String) : Option Ty :=
  (env.scopes.get? scope).bind (·.get? name)

end Env

end Ordinance
