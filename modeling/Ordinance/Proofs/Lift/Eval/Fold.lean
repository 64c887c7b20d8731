import Ordinance.Proofs.Lift.Eval.Lists
import Ordinance.Proofs.Lift.Eval.Meaning

namespace Ordinance

/-- The operator folds a list from an initial value. -/
def Op.folds : Op → Bool
  | fold | reduce => true
  | _ => false

namespace Eval

/-- A fold for which the initial value is asked last. Without one it is empty, except that `reduce`
has no need of one if the list has an element. -/
def foldLate (call : Value → List Value → Result) (o : Op) (f xs : Value) : Result → Result
  | .ok init => call (.op o) [f, init, xs]
  | .error (.raised .empty) =>
      match o, xs with
      | .reduce, .array (v :: vs) => call (.op .reduce) [f, v, .array (v :: vs)]
      | _, .array _ => .error (.raised .empty)
      | _, _ => .error .stuck
  | .error h => .error h

/-- Evaluates as `evalStep` does, except that the initial value of a fold comes last. -/
def lateStep (run : Expr Mark → Result) (call : Value → List Value → Result) (env : Vars) :
    Expr Mark → Result
  | .app (.op o k) [f, init, xs] m =>
      if o.folds then do foldLate call o (← run f) (← run xs) (run init)
      else evalStep run call env (.app (.op o k) [f, init, xs] m)
  | e => evalStep run call env e

mutual

/-- The value of an expression, where folds ask for their initial values last. -/
def lateWith (compared : Comparison) : Nat → Vars → Expr Mark → Result
  | 0, _, _ => .error .exhausted
  | fuel + 1, env, e => lateStep (lateWith compared fuel env) (applyLate compared fuel) env e

def applyLate (compared : Comparison) : Nat → Value → List Value → Result
  | 0, _, _ => .error .exhausted
  | fuel + 1, f, args =>
      applyStep compared (lateWith compared fuel) (applyLate compared fuel) f args

end

theorem lateStep_eq {run : Expr Mark → Result} {call : Value → List Value → Result} {env : Vars}
    {e : Expr Mark} (h : ∀ o k args m, e = .app (.op o k) args m → o.folds = false) :
    lateStep run call env e = evalStep run call env e := by
  unfold lateStep
  split
  next o k f init xs m => rw [h o k _ m rfl, if_neg Bool.false_ne_true]
  next => rfl

end Eval

namespace Expr

def isFoldOp : Expr Mark → Bool
  | op o _ => o.folds
  | _ => false

/-- The expression is evaluated without a step that could raise an exception. -/
def isAtom : Expr Mark → Bool
  | var .. | lit .. | op .. | lam .. => true
  | _ => false

/-- The node is not the call of a fold with an initial value that has to be computed. -/
def startsAtOnce : Expr Mark → Bool
  | app (op o _) [_, init, _] _ => !o.folds || init.isAtom
  | _ => true

/-- The expression is evaluated in the order of its lifted form, if folds ask for their initial
values last; `good` holds of its nodes. -/
inductive Direct (good : Expr Mark → Bool) : Expr Mark → Prop
  | node {e : Expr Mark} : (e.isStrictNode || e.isFoldOp) = true → good e = true →
      (∀ d ∈ e.liftedParts, Direct good d) → Direct good e

theorem Direct.parts {good : Expr Mark → Bool} {e : Expr Mark} (direct : e.Direct good) :
    ∀ d ∈ e.liftedParts, d.Direct good := by
  cases direct with
  | node _ _ parts => exact parts

/-- The node is not an operator that calls its arguments, except to fold a list. -/
def callsToFold : Expr Mark → Bool
  | op o _ => !(o.isHigherOrder || o == .resolveDefault) || o.folds
  | _ => true

end Expr

namespace Lift

open Eval Typing

variable {P : Expr Mark → Prop} {n k : Nat} {env : Vars} {span : Span} {o : Op}

section Steps

/-- The step of a lifted fold does with options what `f` does with their payloads, and once absent
it stays so. -/
structure Steps (f step : Value) : Prop where
  absent : ∀ w, Returns step [.absent, w] (.ok .absent)
  present : ∀ v w r, Returns f [v, w] r → Returns step [.present v, .present w] r

theorem foldStep_steps {f acc x : Var} (hf : f.id < acc.id) (hacc : acc.id < x.id) (hx : x.id < k) :
    Draws k (applyAll (ref f span) [ref acc span, ref x span] span) fun body _ => ∀ env g,
      Dict.lookup? f env = some g → Steps g (.closure [acc, x] body env) := by
  refine (foldStep_finishes hf hacc hx).imp fun body _ _ returns env g found => ?_
  choose call calls using exists_returns g
  constructor
  · intro w
    have step := returns env g call (.ofOption none) w found calls
    rwa [stepOption, opened_ofOption] at step
  · intro v w r hr
    have step := returns env g call (.ofOption (some v)) (.ofOption (some w)) found calls
    rw [hr.unique (calls [v, w])]
    rwa [stepOption, opened_ofOption, Option.elim, opened_ofOption] at step

end Steps

section Folds

variable {call : Value → List Value → Result} {f f' step a b xs xs' : Value} {vs ws : List Value}

theorem foldValues_absent (steps : Steps f' step) (ws : List Value) :
    Settles (fun m => foldValues (Eval.apply m) step .absent ws) (.ok .absent) := by
  induction ws with
  | nil => exact .const _
  | cons w ws ih => exact .bind (steps.absent w) ih

/-- A fold of payloads, which ends as soon as the value so far is absent. -/
theorem foldValues_follows (calls : CallsFollow P call) (hf : StandsFor P f f')
    (steps : Steps f' step) (hvs : List.Forall₂ (StandsFor P) vs ws) (ha : StandsFor P a b) :
    Follows P (Settles fun m => foldValues (Eval.apply m) step b.present (ws.map .present))
      (foldValues call f a vs) := by
  induction hvs generalizing a b with
  | nil => exact .value ha (.const _)
  | @cons v w vs ws head _ ih =>
    have next : Follows P (Returns step [b.present, w.present]) (call f [a, v]) :=
      (calls f f' [a, v] [b, w] hf (.cons ha (.cons head .nil))).imp fun r hr =>
        steps.present b w r hr
    change Follows P _ (call f [a, v] >>= fun a => foldValues call f a vs)
    generalize call f [a, v] = r at next
    cases next with
    | value hw next => exact (ih hw).imp fun r hr => .bind next hr
    | absent next => exact .absent (.bind next (foldValues_absent steps _))
    | raised ne next => exact .raised ne (.bind_error next)
    | stuck => exact .stuck
    | exhausted => exact .exhausted

/-- What a fold of values returns, its lifted form returns of their options. -/
def FoldsFollow (P : Expr Mark → Prop) (call : Value → List Value → Result) : Prop :=
  ∀ o f f' step a b xs xs', o.folds = true → StandsFor P f f' → Steps f' step →
    StandsFor P a b → StandsFor P xs xs' →
    Follows P (Returns (.op o) [step, b.present, xs']) (call (.op o) [f, a, xs])

theorem FoldsFollow.zero (P : Expr Mark → Prop) : FoldsFollow P fun _ _ => .error .exhausted := by
  intro _ _ _ _ _ _ _ _ _ _ _ _ _
  exact .exhausted

theorem FoldsFollow.succ {run : Vars → Expr Mark → Result} (calls : CallsFollow P call) :
    FoldsFollow P (applyStep equalData run call) := by
  intro o f f' step a b xs xs' folds hf steps ha hxs
  cases hxs with
  | array hvs =>
    match o, folds, hvs with
    | .fold, _, hvs =>
      exact (foldValues_follows calls hf steps hvs ha).imp fun r hr => .op hr
    | .reduce, _, .nil => exact .value ha (.op (.const _))
    | .reduce, _, .cons head rest =>
      exact (foldValues_follows calls hf steps rest head).imp fun r hr => .op hr
  | _ => cases o <;> first | exact .stuck | cases folds

/-- A fold without an initial value. -/
theorem foldLate_empty (folds : o.folds = true) (follow : FoldsFollow P call) (hf : StandsFor P f f')
    (steps : Steps f' step) (hxs : StandsFor P xs xs') :
    Follows P (Returns (.op o) [step, .absent, xs'])
      (foldLate call o f xs (.error (.raised .empty))) := by
  cases hxs with
  | array hvs =>
    match o, folds, hvs with
    | .fold, _, hvs => exact .absent (.op (foldValues_absent steps _))
    | .reduce, _, .nil => exact .absent (.op (.const _))
    | .reduce, _, .cons head rest =>
      -- the initial value is not looked at, so the first element does for one
      have first := follow .reduce f f' step _ _ _ _ rfl hf steps head (.array (.cons head rest))
      refine first.imp fun r hr => .op ?_
      obtain ⟨k, hr⟩ := hr
      exact ⟨k, fun m le => hr (m + 1) (by omega)⟩
  | _ => cases o <;> exact .stuck

end Folds

section Expressions

variable {run : Expr Mark → Result} {call : Value → List Value → Result}
  {f f' init init' xs xs' : Expr Mark}

/-- The call of the operator in a lifted fold, under binds for the function and the list. -/
def FoldCall (o : Op) (init : Expr Mark) (span : Span) (f xs : Var) (out : Expr Mark) : Prop :=
  ∃ acc x body, out = apply (.op o (.erased span))
      [lambda [acc, x] [.any, .any] body span, init, ref xs span] span ∧
    ∀ env g, Dict.lookup? f env = some g → Steps g (.closure [acc, x] body env)

theorem FoldCall.follows {g l : Var} {out : Expr Mark} {v v' w w' : Value} {r : Result}
    (h : FoldCall o init' span g l out) (folds : o.folds = true) (follow : FoldsFollow P call)
    (hv : StandsFor P v v') (hw : StandsFor P w w') (function : Dict.lookup? g env = some v')
    (list : Dict.lookup? l env = some w') (hinit : Follows P (Finishes env init') r) :
    Follows P (Finishes env out) (foldLate call o v w r) := by
  obtain ⟨acc, x, body, rfl, steps⟩ := h
  have steps := steps env v' function
  cases hinit with
  | value ha hinit =>
    refine (follow o v v' _ _ _ w w' folds hv steps ha hw).imp fun r hr => ?_
    exact .app .op (.cons .lam (.cons hinit (.cons (.var list) .nil))) hr
  | absent hinit =>
    refine (foldLate_empty folds follow hv steps hw).imp fun r hr => ?_
    exact .app .op (.cons .lam (.cons hinit (.cons (.var list) .nil))) hr
  | @raised y notEmpty hinit =>
    have late : foldLate call o v w (.error (.raised y)) = .error (.raised y) := by
      cases y <;> first | rfl | exact absurd rfl notEmpty
    rw [late]
    exact .raised notEmpty (.app_error .op (.error_tail .lam (.error_head hinit)))
  | stuck => exact .stuck
  | exhausted => exact .exhausted

/-- A lifted fold asks for the function, for the list, and last for the initial value. -/
theorem foldWith_tracks (folds : o.folds = true) (follow : FoldsFollow P call) (le : n ≤ k)
    (hf : Tracks P n env (run f) f') (hinit : Tracks P n env (run init) init')
    (hxs : Tracks P n env (run xs) xs') :
    Draws k (foldWith o f' init' xs' span) fun out _ =>
      Tracks P n env (run f >>= fun f => run xs >>= fun xs => foldLate call o f xs (run init))
        out := by
  refine bindFresh_tracks le hf fun g i hg hi => ?_
  refine (bindFresh_follows (R := FoldCall o init' span g) P fun l j hl hj => ?_).imp
    fun out _ _ hout v v' env₁ hv agree found => ?_
  · refine .bind (.fresh "acc") fun acc _ _ hacc => .bind (.fresh "x") fun x _ _ hx => ?_
    have first : g.id < acc.id := by omega
    have second : acc.id < x.id := by omega
    exact .bind (foldStep_steps first second (by omega)) fun body _ _ steps =>
      .pure ⟨acc, x, body, rfl, steps⟩
  · obtain ⟨l, body, hl, foldCall, follows⟩ := hout
    refine follows env₁ _ _ (hxs env₁ agree) fun w w' hw => ?_
    have ne : g ≠ l := by
      rintro rfl
      omega
    have inside : AgreeBelow n env (Dict.insertEntry l w' env₁) :=
      agree.trans (.insert (by omega) w') (Nat.le_refl n)
    exact foldCall.follows folds follow hv hw (by simp [ne, found]) (by simp) (hinit _ inside)

end Expressions

section Simulation

variable {run : Vars → Expr Mark → Result} {call : Value → List Value → Result} {e : Expr Mark}

theorem fold_simulated {args : List (Expr Mark)} {i m : Mark} (folds : o.folds = true)
    (follow : FoldsFollow P call) (parts : ∀ d ∈ args, Simulated P run d) :
    Simulated P (fun env => lateStep (run env) call env) (.app (.op o i) args m) := by
  intro ctx n env env' payloads agrees k le
  have higher : o.isHigherOrder = true := by cases o <;> first | rfl | cases folds
  by_cases length : args.length = o.arity
  · have three : o.arity = 3 := by cases o <;> first | rfl | cases folds
    obtain ⟨f, init, xs, rfl⟩ := List.length_eq_three.mp (length.trans three)
    have hargs : ∀ d ∈ [f, init, xs], LiftsAs P ctx n env' d (run env d) := fun d hd =>
      parts d hd payloads agrees
    rw [lift_listCall higher length]
    refine .bind (liftAll_tracks hargs le) fun outs j le' houts => ?_
    match outs, houts with
    | [f', init', xs'], .cons hf (.cons hinit (.cons hxs .nil)) =>
      have called : listCall o [f', init', xs'] m.span = liftM (foldWith o f' init' xs' m.span) := by
        cases o <;> first | rfl | cases folds
      have late : lateStep (run env) call env (.app (.op o i) [f, init, xs] m) =
          run env f >>= fun f => run env xs >>= fun xs => foldLate call o f xs (run env init) :=
        if_pos folds
      rw [called]
      refine .supply ((foldWith_tracks folds follow (by omega) hf hinit hxs).imp
        fun out _ _ tracks => ?_)
      rwa [← late] at tracks
  · rw [lift_listCall_of_length_ne higher length]
    exact .fail

variable {good : Expr Mark → Bool}

/-- A node is simulated if its parts are. -/
theorem late_simulated (interprets : Interprets (Expr.Direct good) run call)
    (follow : FoldsFollow (Expr.Direct good) call) (direct : e.Direct good)
    (parts : ∀ d ∈ e.liftedParts, Simulated (Expr.Direct good) run d) :
    Simulated (Expr.Direct good) (fun env => lateStep (run env) call env) e := by
  cases direct with
  | node node _ direct =>
    by_cases called : ∃ o i args m, e = .app (.op o i) args m ∧ o.folds = true
    · obtain ⟨o, i, args, m, rfl, folds⟩ := called
      exact fold_simulated folds follow fun d hd => parts d (List.mem_cons_of_mem _ hd)
    · have notFold : ∀ o i args m, e = .app (.op o i) args m → o.folds = false := by
        intro o i args m eq
        exact Bool.eq_false_iff.mpr fun folds => called ⟨o, i, args, m, eq, folds⟩
      intro ctx n env env' payloads agrees
      change LiftsAs _ ctx n env' e (lateStep (run env) call env e)
      rw [lateStep_eq notFold]
      rcases Bool.or_eq_true_iff.mp node with node | foldOp
      · refine node_simulated interprets node (fun o i args m eq => ?_) direct parts payloads agrees
        have other : o.folds = false := notFold o i args m eq
        subst eq
        cases direct _ List.mem_cons_self with
        | node node _ _ => simpa [Expr.isStrictNode, Expr.isFoldOp, other] using node
      · intro k le
        cases e with
        | op o m => cases o <;> first | exact .fail | cases foldOp
        | _ => cases foldOp

/-- Lifted expressions follow the expressions they come from, evaluated with initial values last. -/
theorem simulated_late (good : Expr Mark → Bool) (fuel : Nat) :
    (∀ e : Expr Mark, e.Direct good → Simulated (Expr.Direct good) (lateWith equalData fuel) e) ∧
      Interprets (Expr.Direct good) (lateWith equalData fuel) (applyLate equalData fuel) ∧
      FoldsFollow (Expr.Direct good) (applyLate equalData fuel) := by
  induction fuel with
  | zero => exact ⟨fun e _ => simulated_zero _ e, .zero _, .zero _⟩
  | succ fuel ih =>
    obtain ⟨bodies, interprets, follow⟩ := ih
    refine ⟨fun e direct => ?_, .succ bodies (fun _ _ _ _ _ => rfl) fun _ _ _ => rfl,
      .succ interprets.functions⟩
    exact late_simulated interprets follow direct fun d hd => bodies d (direct.parts d hd)

theorem evalStep_call {run : Expr Mark → Result} {env : Vars} {g f init xs : Expr Mark} {m : Mark} :
    evalStep run call env (.app g [f, init, xs] m) = run g >>= fun g => run f >>= fun v =>
      run init >>= fun a => run xs >>= fun w => call g [v, a, w] := by
  change (run g >>= fun g => runAll run [f, init, xs] >>= fun vs => call g vs) = _
  simp only [runAll_cons]
  rfl

/-- To evaluate an initial value that is at hand cannot fail, so it may as well come last. -/
theorem evalStep_atOnce {run : Expr Mark → Result} (call : Value → List Value → Result) (env : Vars)
    (op : ∀ o m, run (.op o m) = .ok (.op o) ∨ run (.op o m) = .error .exhausted)
    (atoms : ∀ d : Expr Mark, d.isAtom = true → ∀ x, run d ≠ .error (.raised x))
    (atOnce : e.startsAtOnce = true) :
    evalStep run call env e = lateStep run call env e ∨
      evalStep run call env e = .error .stuck ∨ evalStep run call env e = .error .exhausted := by
  unfold lateStep
  split
  next o k f init xs m =>
    cases folds : o.folds with
    | false => exact .inl rfl
    | true =>
      have steady := atoms init (by simpa [Expr.startsAtOnce, folds] using atOnce)
      rw [evalStep_call]
      rcases op o k with called | exhausted
      · rw [called]
        cases run f with
        | error h => exact .inl rfl
        | ok v =>
          cases hinit : run init with
          | ok a => exact .inl rfl
          | error h =>
            cases h with
            | raised x => exact absurd hinit (steady x)
            | stuck => exact .inr (.inl rfl)
            | exhausted => exact .inr (.inr rfl)
      · rw [exhausted]
        exact .inr (.inr rfl)
  next => exact .inl rfl

theorem atoms_quiet (fuel : Nat) (env : Vars) (h : e.isAtom = true) (x : Exn) :
    evalWith equalData fuel env e ≠ .error (.raised x) := by
  cases fuel with
  | zero => simp [evalWith]
  | succ fuel =>
    rw [evalWith]
    cases e with
    | var v m => cases found : Dict.lookup? v env <;> simp [evalStep, stuckUnless, found]
    | lit l m => cases l <;> simp [evalStep, literal]
    | op | lam => simp [evalStep]
    | _ => cases h

/-- Lifted expressions follow those whose folds start at once, evaluated as they are. -/
theorem simulated_atOnce (fuel : Nat) :
    (∀ e : Expr Mark, e.Direct Expr.startsAtOnce →
      Simulated (Expr.Direct Expr.startsAtOnce) (evalWith equalData fuel) e) ∧
    Interprets (Expr.Direct Expr.startsAtOnce) (evalWith equalData fuel) (applyWith equalData fuel) ∧
    FoldsFollow (Expr.Direct Expr.startsAtOnce) (applyWith equalData fuel) := by
  induction fuel with
  | zero => exact ⟨fun e _ => simulated_zero _ e, .zero _, .zero _⟩
  | succ fuel ih =>
    obtain ⟨bodies, interprets, follow⟩ := ih
    refine ⟨fun e direct => ?_, .succ bodies (fun _ _ _ _ _ => rfl) fun _ _ _ => rfl,
      .succ interprets.functions⟩
    have late := late_simulated interprets follow direct fun d hd => bodies d (direct.parts d hd)
    have atOnce : e.startsAtOnce = true := by
      cases direct with
      | node _ atOnce _ => exact atOnce
    intro ctx n env env' payloads agrees k le
    change Lifts k (e.lift ctx) fun out _ => Tracks _ n env' (evalStep _ _ env e) out
    have same := evalStep_atOnce (applyWith equalData fuel) env (interprets.op env)
      (fun d hd => atoms_quiet fuel env hd) atOnce
    rcases same with eq | eq | eq
    · rw [eq]
      exact late payloads agrees le
    · rw [eq]
      exact (lift_draws e).imp fun _ _ _ _ _ _ => .stuck
    · rw [eq]
      exact (lift_draws e).imp fun _ _ _ _ _ _ => .exhausted

end Simulation

section Meaning

variable {decls : Decls} {Δ : Env} {Γ : Dict Var Ty} {e t out : Expr Mark} {m : Nat}
  {good : Expr Mark → Bool}

theorem direct_of_hasTy {u : Ty} (typed : HasTy Eq decls Δ Γ e u)
    (all : (e.all fun e => e.callsToFold && good e) = true)
    (prompt : ∀ u ∈ e.valueTypes, u.hasThunk = false) : e.Direct good := by
  refine prompt_induct (fun e here node parts => ?_) typed all prompt
  obtain ⟨op, here⟩ := Bool.and_eq_true_iff.mp here
  refine .node ?_ here parts
  cases e with
  | op o m => exact op
  | _ => exact Bool.or_eq_true_iff.mpr (.inl (node nofun))

/-- The lifted expression means what has the result `r`: it gives the option of what stands for the
value, or absence if `r` is empty, and raises any other exception. -/
def Means (P : Expr Mark → Prop) (out : Expr Mark) (r : Result) : Prop :=
  (∀ v, r = .ok v → ∃ w, StandsFor P v w ∧ Finishes [] out (.ok w.present)) ∧
  (r = .error (.raised .empty) → Finishes [] out (.ok .absent)) ∧
  ∀ x, x ≠ .empty → r = .error (.raised x) → Finishes [] out (.error (.raised x))

theorem Follows.means {r : Result} (h : Follows P (Finishes [] out) r) : Means P out r := by
  cases h with
  | value hw h =>
    refine ⟨fun v eq => ?_, by simp, by simp⟩
    cases eq
    exact ⟨_, hw, h⟩
  | absent h =>
    refine ⟨by simp, fun _ => h, fun x ne eq => ?_⟩
    cases eq
    exact absurd rfl ne
  | raised ne h =>
    refine ⟨by simp, fun eq => ?_, fun x _ eq => ?_⟩
    · cases eq
      exact absurd rfl ne
    · cases eq
      exact h
  | stuck | exhausted => simp [Means]

theorem Simulated.means {run : Vars → Expr Mark → Result} (h : Simulated P run t)
    (lifted : t.lift ∅ n = (.ok out, m)) : Means P out (run [] t) := by
  obtain ⟨_, tracks⟩ := h (payloads_empty n) agrees_nil (Nat.le_refl n) out m lifted
  exact (tracks [] (.refl n [])).means

/-- The lifted form of a checked expression means what the expression does with initial values
last. -/
theorem lift_means_late (ordered : e.Ordered) (checked : e.synthesize decls Δ = .ok t)
    (ops : t.all Expr.callsToFold = true) (prompt : ∀ u ∈ t.valueTypes, u.hasThunk = false)
    (lifted : t.lift ∅ n = (.ok out, m)) (fuel : Nat) :
    Means (Expr.Direct fun _ => true) out (lateWith equalData fuel [] t) := by
  have typed := (synthesize_hasTy ordered checked).1
  have direct : t.Direct fun _ => true := direct_of_hasTy typed (by simpa using ops) prompt
  exact ((simulated_late _ fuel).1 t direct).means lifted

/-- Lifting an expression that has passed the checker keeps its meaning in the order in which a fold
asks for its initial value last, and so its meaning wherever that order has the same result. It keeps
the meaning of every expression whose folds start from values that are at hand. This is for
expressions that delay no value, that call functions through no other operators and compare none. -/
theorem lift_folds_late (decls : Decls) (env : Env) (e t : Expr Mark) (ordered : e.Ordered)
    (checked : e.synthesize decls env = .ok t) (ops : t.all Expr.callsToFold = true)
    (prompt : ∀ u ∈ t.valueTypes, u.hasThunk = false) (n : Nat) (out : Expr Mark) (m : Nat)
    (lifted : t.lift ∅ n = (.ok out, m)) (fuel : Nat) :
    Means (Expr.Direct fun _ => true) out (lateWith equalData fuel [] t) ∧
    (lateWith equalData fuel [] t = eval fuel [] t →
      Means (Expr.Direct fun _ => true) out (eval fuel [] t)) ∧
    (t.all Expr.startsAtOnce = true → ComparesData fuel [] t →
      Means (Expr.Direct Expr.startsAtOnce) out (eval fuel [] t)) := by
  have late := lift_means_late ordered checked ops prompt lifted fuel
  refine ⟨late, fun same => same ▸ late, fun atOnce data => ?_⟩
  have typed := (synthesize_hasTy ordered checked).1
  have direct : t.Direct Expr.startsAtOnce := direct_of_hasTy typed (Expr.all_and ops atOnce) prompt
  rw [← data]
  exact ((simulated_atOnce fuel).1 t direct).means lifted

section Example

/-- The sum of the initial value and the numbers, by `fold` or by `reduce`. -/
def total (o : Op) (init : Expr Mark) (numbers : List Int64) : Expr Mark :=
  let m : Mark := .blank
  .app (.op o m) [.op (.add .int) m, init, .array (numbers.map fun n => .lit (.int n) m) m] m

def ten : Expr Mark := .lit (.int 10) .blank

/-- The number ten, by a default. -/
def tenAnyway : Expr Mark :=
  .default [] (.lit (.bool true) .blank) ten .blank

private def sums (init : Expr Mark) (atOnce : Bool) : Bool :=
  ((total .fold init [1, 2]).synthesize ⟨∅, ∅⟩ .empty).toOption.any fun t =>
    t.all Expr.callsToFold && t.valueTypes.all (!·.hasThunk) &&
      (t.lift ∅ 0).1.toOption.any (fun _ => true) && (!atOnce || t.all Expr.startsAtOnce) &&
      isInt 13 (lateWith equalData 9 [] t) && isInt 13 (evalWith equalData 9 [] t) &&
      isInt 13 (eval 9 [] t)

private theorem of_sums {init : Expr Mark} {atOnce : Bool} (h : sums init atOnce = true) :
    ∃ t out m, (total .fold init [1, 2]).synthesize ⟨∅, ∅⟩ .empty = .ok t ∧
      t.all Expr.callsToFold = true ∧ (∀ u ∈ t.valueTypes, u.hasThunk = false) ∧
      t.lift ∅ 0 = (.ok out, m) ∧ (atOnce = true → t.all Expr.startsAtOnce = true) ∧
      lateWith equalData 9 [] t = eval 9 [] t ∧ ComparesData 9 [] t ∧
      eval 9 [] t = .ok (.int 13) := by
  obtain ⟨t, checked, found⟩ := exists_ok h
  simp only [Bool.and_eq_true, List.all_eq_true] at found
  obtain ⟨⟨⟨⟨⟨⟨ops, prompt⟩, lifted⟩, starts⟩, late⟩, data⟩, value⟩ := found
  obtain ⟨out, m, lifted, _⟩ := exists_run lifted
  have late := eq_of_isInt late
  have data := eq_of_isInt data
  have value := eq_of_isInt value
  refine ⟨t, out, m, checked, ops, by simpa using prompt, lifted, ?_, late.trans value.symm,
    data.trans value.symm, value⟩
  rintro rfl
  simpa using starts

theorem total_fold_keeps_meaning :
    (∃ t out m, (total .fold tenAnyway [1, 2]).synthesize ⟨∅, ∅⟩ .empty = .ok t ∧
      t.lift ∅ 0 = (.ok out, m) ∧ eval 9 [] t = .ok (.int 13) ∧
      Finishes [] out (.ok (.present (.int 13)))) ∧
    (∃ t out m, (total .fold ten [1, 2]).synthesize ⟨∅, ∅⟩ .empty = .ok t ∧
      t.lift ∅ 0 = (.ok out, m) ∧ eval 9 [] t = .ok (.int 13) ∧
      Finishes [] out (.ok (.present (.int 13)))) := by
  constructor
  · have found : sums tenAnyway false = true := by decide +kernel
    obtain ⟨t, out, m, checked, ops, prompt, lifted, _, same, _, value⟩ := of_sums found
    obtain ⟨_, inOrder, _⟩ := lift_folds_late ⟨∅, ∅⟩ .empty (total .fold tenAnyway [1, 2]) t
      (by decide) checked ops prompt 0 out m lifted 9
    obtain ⟨w, hw, finishes⟩ := (inOrder same).1 _ value
    cases hw
    exact ⟨t, out, m, checked, lifted, value, finishes⟩
  · have found : sums ten true = true := by decide +kernel
    obtain ⟨t, out, m, checked, ops, prompt, lifted, starts, _, data, value⟩ := of_sums found
    obtain ⟨_, _, atOnce⟩ := lift_folds_late ⟨∅, ∅⟩ .empty (total .fold ten [1, 2]) t
      (by decide) checked ops prompt 0 out m lifted 9
    obtain ⟨w, hw, finishes⟩ := (atOnce (starts rfl) data).1 _ value
    cases hw
    exact ⟨t, out, m, checked, lifted, value, finishes⟩

private def isEmpty : Result → Bool
  | .error (.raised .empty) => true
  | _ => false

private theorem eq_of_isEmpty {r : Result} (h : isEmpty r = true) :
    r = .error (.raised .empty) := by
  unfold isEmpty at h
  split at h
  · rfl
  · cases h

/-- Without an initial value the sum is empty, but its lifted form is the sum of the numbers. -/
theorem total_reduce_not_empty : ∃ t out m,
    (total .reduce (.raise .empty .blank) [1]).synthesize ⟨∅, ∅⟩ .empty = .ok t ∧
    t.all Expr.callsToFold = true ∧ (∀ u ∈ t.valueTypes, u.hasThunk = false) ∧
    ComparesData 9 [] t ∧ t.lift ∅ 0 = (.ok out, m) ∧ eval 9 [] t = .error (.raised .empty) ∧
    Finishes [] out (.ok (.present (.int 1))) ∧ ¬ Finishes [] out (.ok .absent) := by
  have found : ((total .reduce (.raise .empty .blank) [1]).synthesize ⟨∅, ∅⟩ .empty).toOption.any
      (fun t => t.all Expr.callsToFold && t.valueTypes.all (!·.hasThunk) &&
        (t.lift ∅ 0).1.toOption.any (fun _ => true) && isInt 1 (lateWith equalData 9 [] t) &&
        isEmpty (evalWith equalData 9 [] t) && isEmpty (eval 9 [] t)) = true := by
    decide +kernel
  obtain ⟨t, checked, found⟩ := exists_ok found
  simp only [Bool.and_eq_true, List.all_eq_true] at found
  obtain ⟨⟨⟨⟨⟨ops, prompt⟩, lifted⟩, late⟩, data⟩, empty⟩ := found
  obtain ⟨out, m, lifted, _⟩ := exists_run lifted
  have prompt : ∀ u ∈ t.valueTypes, u.hasThunk = false := by simpa using prompt
  have empty := eq_of_isEmpty empty
  have means := lift_means_late (by decide) checked ops prompt lifted 9
  obtain ⟨w, hw, finishes⟩ := means.1 _ (eq_of_isInt late)
  cases hw
  refine ⟨t, out, m, checked, ops, prompt, (eq_of_isEmpty data).trans empty.symm, lifted, empty,
    finishes, fun absent => ?_⟩
  have same := congrArg Value.payload? (Except.ok.inj (finishes.unique absent))
  simp at same

end Example

end Meaning

end Lift

end Ordinance
