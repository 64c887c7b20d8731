import Ordinance.Lift.Build

/-! The lifted form of each kind of expression, made from its lifted parts. -/

namespace Ordinance.Lift

/-- The payload of `body` wrapped again, or else what `handler` gives. -/
def rescueEmpty (body handler : Expr Mark) (span : Span) : Supply (Expr Mark) := do
  let x ← fresh "x"
  inspect body handler x (wrap (ref x span) span) span

def force (e : Expr Mark) (span : Span) : Supply (Expr Mark) := do
  return wrap (← unwrap e span) span

/-- Exceptions are data already; the justification and the consequence wait for their turn. -/
def default (exceptions : List (Expr Mark)) (just cons : Expr Mark) (span : Span) :
    Supply (Expr Mark) := do
  let just ← thunk just span
  let cons ← thunk cons span
  return apply (.op .resolveDefault (.erased span))
    [.array exceptions (.erased span), just, cons] span

def tuple (es : List (Expr Mark)) (span : Span) : Supply (Expr Mark) :=
  bindAll es (fun xs => return wrap (.tuple (refs xs span) (.erased span)) span) span

def array (es : List (Expr Mark)) (span : Span) : Supply (Expr Mark) :=
  bindAll es (fun xs =>
    return wrap (.array (xs.map fun x => wrap (ref x span) span) (.erased span)) span) span

def component (e : Expr Mark) (index size : Nat) (span : Span) : Supply (Expr Mark) :=
  bindFresh e (fun x => return wrap (.component (ref x span) index size (.erased span)) span) span

def record (struct : String) (fields : List (String × Expr Mark)) (span : Span) :
    Supply (Expr Mark) :=
  bindAll (fields.map (·.2)) (fun xs =>
    let values := xs.map fun x => wrap (ref x span) span
    return wrap (.record struct ((fields.map (·.1)).zip values) (.erased span)) span) span

/-- A field holds an option, so what is read is not wrapped again. -/
def field (e : Expr Mark) (struct name : String) (span : Span) : Supply (Expr Mark) :=
  bindFresh e (fun x => return .field (ref x span) struct name (.erased span)) span

def inject (enum ctor : String) (e : Expr Mark) (span : Span) : Supply (Expr Mark) :=
  bindFresh e (fun x => return wrap (.inject enum ctor (ref x span) (.erased span)) span) span

def switch (e : Expr Mark) (enum : String) (cases : List (String × Expr Mark)) (span : Span) :
    Supply (Expr Mark) :=
  bindFresh e (fun x => return .switch (ref x span) enum cases (.erased span)) span

def ite (cond yes no : Expr Mark) (span : Span) : Supply (Expr Mark) :=
  bindFresh cond (fun x => return .ite (ref x span) yes no (.erased span)) span

def assert (e : Expr Mark) (span : Span) : Supply (Expr Mark) :=
  bindFresh e (fun x => return wrap (.assert (ref x span) (.erased span)) span) span

/-- An operator as a value: the function that applies it and wraps the result. -/
def operator (o : Op) (span : Span) : Supply (Expr Mark) := do
  let xs ← freshMany "x" o.arity
  let body := wrap (apply (.op o (.erased span)) (refs xs span) span) span
  return wrap (lambda xs (xs.map fun _ => .any) body span) span

def call (f : Expr Mark) (args : List (Expr Mark)) (span : Span) : Supply (Expr Mark) :=
  bindFresh f (fun g => applyAll (ref g span) args span) span

/-- A scope takes and returns records of options, so its argument is passed as it stands. -/
def scopeCall (target : Var) (struct : String) (fields : List (String × Expr Mark))
    (argSpan span : Span) : Expr Mark :=
  wrap (apply (ref target span) [.record struct fields (.erased argSpan)] span) span

/-- Applies `f` to the payload of an element. -/
def onElement (f x : Var) (span : Span) : Supply (Expr Mark) :=
  bindFresh (ref x span) (fun y => return apply (ref f span) [ref y span] span) span

def map (f xs : Expr Mark) (span : Span) : Supply (Expr Mark) :=
  bindFresh f (fun f => bindFresh xs (fun xs => do
    let x ← fresh "x"
    let body ← onElement f x span
    let step := lambda [x] [.any] body span
    return wrap (apply (.op .map (.erased span)) [step, ref xs span] span) span) span) span

/-- An element of which the predicate is absent is an error and is not dropped. -/
def filter (f xs : Expr Mark) (span : Span) : Supply (Expr Mark) :=
  bindFresh f (fun f => bindFresh xs (fun xs => do
    let x ← fresh "x"
    let body ← unwrap (← onElement f x span) span
    let step := lambda [x] [.any] body span
    return wrap (apply (.op .filter (.erased span)) [step, ref xs span] span) span) span) span

/-- A fold of options, for `fold` and `reduce`: absent as soon as the value so far or an element is. -/
def foldWith (o : Op) (f init xs : Expr Mark) (span : Span) : Supply (Expr Mark) :=
  bindFresh f (fun f => bindFresh xs (fun xs => do
    let acc ← fresh "acc"
    let x ← fresh "x"
    let body ← applyAll (ref f span) [ref acc span, ref x span] span
    let step := lambda [acc, x] [.any, .any] body span
    return apply (.op o (.erased span)) [step, init, ref xs span] span) span) span

end Ordinance.Lift
