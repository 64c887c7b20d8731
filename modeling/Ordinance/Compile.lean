import Ordinance.Lift.Program
import Ordinance.Typing.Check

namespace Ordinance

/-- What a compilation gives: the program with its types, what it defines, the lifted program, the
steps of unification, and sizes. The types of the lifted program are open unless it was checked. -/
structure Compiled where
  typed : Program Mark
  env : Env
  lifted : Program Mark
  trace : List Step

structure Stats where
  items : Nat
  typedNodes : Nat
  liftedNodes : Nat
deriving DecidableEq

def Compiled.stats (c : Compiled) : Stats where
  items := c.typed.items.length
  typedNodes := c.typed.size
  liftedNodes := c.lifted.size

def diagnosed {ε α : Type} (diagnostic : ε → Diagnostic) (r : Except ε α) :
    ExceptT Diagnostic Supply α :=
  match r with
  | .ok a => pure a
  | .error e => throw (diagnostic e)

/-- Types a program, lifts it, and types the result if `recheck` says so. -/
def Program.compile (p : Program Mark) (tracing recheck : Bool) :
    ExceptT Diagnostic Supply Compiled := do
  let c ← diagnosed Typing.Error.diagnostic (p.check tracing)
  let lifted ← diagnosed Lift.Error.diagnostic (← c.program.lift.run)
  if recheck then
    let l ← diagnosed Typing.Error.diagnostic (lifted.check tracing)
    return ⟨c.program, c.env, l.program, c.trace ++ l.trace⟩
  else
    return ⟨c.program, c.env, lifted, c.trace⟩

end Ordinance
