import Ordinance.Expr.Basic

namespace Ordinance.Lift

variable {m : Type → Type} [Monad m] [MonadLiftT Supply m]

def ref (v : Var) (span : Span) : Expr Mark := .var v (.erased span)

def refs (vs : List Var) (span : Span) : List (Expr Mark) := vs.map (ref · span)

def lambda (params : List Var) (tys : List Ty) (body : Expr Mark) (span : Span) : Expr Mark :=
  .lam params tys body (.erased span)

def apply (f : Expr Mark) (args : List (Expr Mark)) (span : Span) : Expr Mark :=
  .app f args (.erased span)

/-- `Present e` -/
def wrap (e : Expr Mark) (span : Span) : Expr Mark :=
  .inject Optional.enum Optional.present e (.erased span)

/-- `Absent ()` -/
def nothing (span : Span) : Expr Mark :=
  .inject Optional.enum Optional.absent (.lit .unit (.erased span)) (.erased span)

/-- `fun (_ : unit) => body` -/
def thunk (body : Expr Mark) (span : Span) : Supply (Expr Mark) := do
  return lambda [← fresh "_"] [.unit] body span

/-- `match arg with | Absent _ => ifAbsent | Present x => ifPresent` -/
def inspect (arg ifAbsent : Expr Mark) (x : Var) (ifPresent : Expr Mark) (span : Span) :
    Supply (Expr Mark) := do
  let ifAbsent ← thunk ifAbsent span
  return .switch arg Optional.enum
    [(Optional.absent, ifAbsent), (Optional.present, lambda [x] [.any] ifPresent span)]
    (.erased span)

/-- `body` with `x` for the payload of `arg`; absent if `arg` is. -/
def bind (x : Var) (arg body : Expr Mark) (span : Span) : Supply (Expr Mark) :=
  inspect arg (nothing span) x body span

/-- `bind` of a new variable, from which `k` makes the body. -/
def bindFresh (arg : Expr Mark) (k : Var → m (Expr Mark)) (span : Span) : m (Expr Mark) := do
  let x ← fresh "x"
  let body ← k x
  bind x arg body span

/-- The body under one `bind` for each argument, the first outermost. -/
def bindEach (body : Expr Mark) (span : Span) : List (Var × Expr Mark) → Supply (Expr Mark)
  | [] => pure body
  | (x, arg) :: rest => do
      let body ← bindEach body span rest
      bind x arg body span

/-- Binds all arguments in order; `k` makes the body from the new variables. -/
def bindAll (args : List (Expr Mark)) (k : List Var → m (Expr Mark)) (span : Span) :
    m (Expr Mark) := do
  let xs ← freshMany "x" args.length
  let body ← k xs
  bindEach body span (xs.zip args)

/-- `bind` whose body is a plain value. -/
def mapBind (x : Var) (arg body : Expr Mark) (span : Span) : Supply (Expr Mark) :=
  bind x arg (wrap body span) span

/-- Applies a function that returns an option to the payloads of the arguments. -/
def applyAll (f : Expr Mark) (args : List (Expr Mark)) (span : Span) : Supply (Expr Mark) :=
  bindAll args (fun xs => return apply f (refs xs span) span) span

/-- Applies a function that returns a plain value to the payloads of the arguments. -/
def mapAll (f : Expr Mark) (args : List (Expr Mark)) (span : Span) : Supply (Expr Mark) :=
  bindAll args (fun xs => return wrap (apply f (refs xs span) span) span) span

/-- The payload; to have none is an error. -/
def unwrap (arg : Expr Mark) (span : Span) : Supply (Expr Mark) := do
  let x ← fresh "x"
  inspect arg (.raise .noValue (.erased span)) x (ref x span) span

end Ordinance.Lift
