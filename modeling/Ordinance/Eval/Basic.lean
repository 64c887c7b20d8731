import Ordinance.Eval.Value

namespace Ordinance.Eval

/-- Why an evaluation has no value: an exception, an expression that means nothing, such as a sum
that no word has room for, or no more steps to take. -/
inductive Halt where
  | raised (x : Exn)
  | stuck
  | exhausted
deriving DecidableEq

abbrev Result := Except Halt Value

/-- The values of variables, in ascending order of variable. -/
abbrev Vars := List (Var × Value)

def extend (env : Vars) (bindings : List (Var × Value)) : Vars :=
  bindings.foldl (fun env b => Dict.insertEntry b.1 b.2 env) env

def stuckUnless (r : Option Value) : Result :=
  match r with
  | some v => .ok v
  | none => .error .stuck

/-- Dates, durations and ratios are outside of what is evaluated. -/
def literal : Literal → Result
  | .bool b => .ok (.bool b)
  | .int n => .ok (.int n)
  | .money n => .ok (.money n)
  | .unit => .ok .unit
  | .rat _ _ | .date _ | .duration _ _ _ => .error .stuck

/-- The values of those expressions that are not empty. -/
def survivors (run : Expr Mark → Result) : List (Expr Mark) → Except Halt (List Value)
  | [] => .ok []
  | e :: es =>
      match run e with
      | .ok v => do return v :: (← survivors run es)
      | .error (.raised .empty) => survivors run es
      | .error h => .error h

def runAll (run : Expr Mark → Result) : List (Expr Mark) → Except Halt (List Value)
  | [] => .ok []
  | e :: es => do
      let v ← run e
      let vs ← runAll run es
      return v :: vs

def runNamed (run : Expr Mark → Result) :
    List (String × Expr Mark) → Except Halt (List (String × Value))
  | [] => .ok []
  | (n, e) :: es => do
      let v ← run e
      let vs ← runNamed run es
      return (n, v) :: vs

def mapValues (call : Value → List Value → Result) (f : Value) :
    List Value → Except Halt (List Value)
  | [] => .ok []
  | v :: vs => do
      let w ← call f [v]
      let ws ← mapValues call f vs
      return w :: ws

def filterValues (call : Value → List Value → Result) (f : Value) :
    List Value → Except Halt (List Value)
  | [] => .ok []
  | v :: vs => do
      match ← call f [v] with
      | .bool true => return v :: (← filterValues call f vs)
      | .bool false => filterValues call f vs
      | _ => .error .stuck

def foldValues (call : Value → List Value → Result) (f : Value) : Value → List Value → Result
  | acc, [] => .ok acc
  | acc, v :: vs => do
      let acc ← call f [acc, v]
      foldValues call f acc vs

/-- The result with `handler` in place of the exception `x`. -/
def recover (x : Exn) (handler : Result) : Result → Result
  | .error (.raised y) => if y = x then handler else .error (.raised y)
  | r => r

/-- One exception that applies wins, two conflict, and with none the justification decides. -/
def choose (found : List Value) (otherwise : Result) : Result :=
  match found with
  | [] => otherwise
  | [v] => .ok v
  | _ => .error (.raised .conflict)

def resolveDefault (call : Value → List Value → Result) (exceptions : List Value)
    (just cons : Value) : Result :=
  choose (exceptions.filter (·.payload?.isSome)) do
    match (← call just [.unit]).payload? with
    | some (.bool true) => call cons [.unit]
    | some (.bool false) | none => return .absent
    | some _ => .error .stuck

/-- The value for a number, where there is a word for it. -/
def exactly (value : Int64 → Value) (n : Int) : Result :=
  match Word.fit n with
  | .ok w => .ok (value w)
  | .error _ => .error .stuck

/-- What comparing two values gives. -/
abbrev Comparison := Value → Value → Result

def equal : Comparison := fun v w => .ok (.bool (v.same w))

def applyOp (compared : Comparison) (call : Value → List Value → Result) :
    Op → List Value → Result
  | .not, [.bool a] => .ok (.bool !a)
  | .and, [.bool a, .bool b] => .ok (.bool (a && b))
  | .or, [.bool a, .bool b] => .ok (.bool (a || b))
  | .add .int, [.int a, .int b] => exactly .int (a.toInt + b.toInt)
  | .add .money, [.money a, .money b] => exactly .money (a.toInt + b.toInt)
  | .sub .int, [.int a, .int b] => exactly .int (a.toInt - b.toInt)
  | .mul .int, [.int a, .int b] => exactly .int (a.toInt * b.toInt)
  | .gt .int, [.int a, .int b] => .ok (.bool (a > b))
  | .lt .int, [.int a, .int b] => .ok (.bool (a < b))
  | .eq, [a, b] => compared a b
  | .length, [.array vs] => .ok (.int (.ofNat vs.length))
  | .map, [f, .array vs] => do return .array (← mapValues call f vs)
  | .filter, [f, .array vs] => do return .array (← filterValues call f vs)
  | .fold, [f, init, .array vs] => foldValues call f init vs
  | .reduce, [_, init, .array []] => .ok init
  | .reduce, [f, _, .array (v :: vs)] => foldValues call f v vs
  | .resolveDefault, [.array exceptions, just, cons] => resolveDefault call exceptions just cons
  | _, _ => .error .stuck

def runLets (run : Vars → Expr Mark → Result) (env : Vars) :
    List (ScopeLet Mark) → Except Halt Vars
  | [] => .ok env
  | l :: ls => do
      let v ← run env l.expr
      runLets run (Dict.insertEntry l.var v env) ls

def runScope (run : Vars → Expr Mark → Result) (b : ScopeBody Mark) (env : Vars)
    (input : Value) : Result := do
  let env ← runLets run (Dict.insertEntry b.inputVar input env) b.lets
  run env b.result

/-- The value of an expression: `run` gives the values of its parts, `call` what functions return. -/
def evalStep (run : Expr Mark → Result) (call : Value → List Value → Result) (env : Vars) :
    Expr Mark → Result
  | .var v _ => stuckUnless (Dict.lookup? v env)
  | .lit l _ => literal l
  | .tuple es _ => do return .tuple (← runAll run es)
  | .component e index _ _ => do
      match ← run e with
      | .tuple vs => stuckUnless vs[index]?
      | _ => .error .stuck
  | .record struct fields _ => do return .record struct (← runNamed run fields)
  | .field e _ name _ => do
      match ← run e with
      | .record _ fields => stuckUnless (fields.lookup name)
      | _ => .error .stuck
  | .inject enum ctor e _ => do return .inject enum ctor (← run e)
  | .switch e _ cases _ => do
      match ← run e with
      | .inject _ ctor payload =>
          match cases.lookup ctor with
          | some case => do
              let f ← run case
              call f [payload]
          | none => .error .stuck
      | _ => .error .stuck
  | .op o _ => .ok (.op o)
  | .app f args _ => do
      let f ← run f
      let args ← runAll run args
      call f args
  | .lam params _ body _ => .ok (.closure params body env)
  | .default exceptions just cons _ => do
      let found ← survivors run exceptions
      choose found do
        match ← run just with
        | .bool true => run cons
        | .bool false => .error (.raised .empty)
        | _ => .error .stuck
  | .raise x _ => .error (.raised x)
  | .rescue body x handler _ => recover x (run handler) (run body)
  | .force e _ => recover .empty (.error (.raised .noValue)) (run e)
  | .array es _ => do return .array (← runAll run es)
  | .ite cond yes no _ => do
      match ← run cond with
      | .bool true => run yes
      | .bool false => run no
      | _ => .error .stuck
  | .assert e _ => do
      match ← run e with
      | .bool true => return .unit
      | .bool false => .error (.raised .assertionFailed)
      | _ => .error .stuck
  | .location _ _ => .error .stuck

def applyStep (compared : Comparison) (run : Vars → Expr Mark → Result)
    (call : Value → List Value → Result) : Value → List Value → Result
  | .closure params body env, args =>
      if params.length = args.length then run (extend env (params.zip args)) body
      else .error .stuck
  | .op o, args => applyOp compared call o args
  | .scope b env, [input] => runScope run b env input
  | _, _ => .error .stuck

mutual

/-- The value of an expression, found in at most `fuel` nested steps. -/
def evalWith (compared : Comparison) : Nat → Vars → Expr Mark → Result
  | 0, _, _ => .error .exhausted
  | fuel + 1, env, e => evalStep (evalWith compared fuel env) (applyWith compared fuel) env e

def applyWith (compared : Comparison) : Nat → Value → List Value → Result
  | 0, _, _ => .error .exhausted
  | fuel + 1, f, args =>
      applyStep compared (evalWith compared fuel) (applyWith compared fuel) f args

end

def eval : Nat → Vars → Expr Mark → Result := evalWith equal

def apply : Nat → Value → List Value → Result := applyWith equal

end Ordinance.Eval
