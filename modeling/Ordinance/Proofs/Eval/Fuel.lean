import Ordinance.Proofs.Eval.Run

namespace Ordinance.Eval

/-- With more fuel a computation that had too little may go on; any other result stays. -/
def ExtendsTo {α : Type} (r r' : Except Halt α) : Prop := r = .error .exhausted ∨ r = r'

namespace ExtendsTo

variable {α β : Type} {r r' : Except Halt α} {f f' : α → Except Halt β}

theorem refl (r : Except Halt α) : ExtendsTo r r := .inr rfl

theorem exhausted : ExtendsTo (.error .exhausted) r := .inl rfl

theorem trans {r'' : Except Halt α} (h : ExtendsTo r r') (h' : ExtendsTo r' r'') :
    ExtendsTo r r'' := by
  rcases h with rfl | rfl
  · exact exhausted
  · exact h'

theorem bind (hr : ExtendsTo r r') (hf : ∀ a, ExtendsTo (f a) (f' a)) :
    ExtendsTo (r >>= f) (r' >>= f') := by
  rcases hr with rfl | rfl
  · exact exhausted
  · cases r with
    | error h => exact refl _
    | ok a => exact hf a

end ExtendsTo

section Steps

variable {run run' : Expr Mark → Result} {call call' : Value → List Value → Result}

section Lists

variable (hrun : ∀ e, ExtendsTo (run e) (run' e))

include hrun

theorem runAll_extends (es : List (Expr Mark)) : ExtendsTo (runAll run es) (runAll run' es) := by
  induction es with
  | nil => exact .refl _
  | cons e es ih => exact .bind (hrun e) fun v => .bind ih fun vs => .refl _

theorem runNamed_extends (es : List (String × Expr Mark)) :
    ExtendsTo (runNamed run es) (runNamed run' es) := by
  induction es with
  | nil => exact .refl _
  | cons e es ih => exact .bind (hrun e.2) fun v => .bind ih fun vs => .refl _

theorem survivors_extends (es : List (Expr Mark)) :
    ExtendsTo (survivors run es) (survivors run' es) := by
  induction es with
  | nil => exact .refl _
  | cons e es ih =>
    rw [survivors, survivors]
    rcases hrun e with eq | eq
    · rw [eq]
      exact .exhausted
    · rw [eq]
      split
      next => exact .bind ih fun vs => .refl _
      next => exact ih
      next => exact .refl _

end Lists

theorem choose_extends (found : List Value) {r r' : Result} (h : ExtendsTo r r') :
    ExtendsTo (choose found r) (choose found r') := by
  unfold choose
  split
  next => exact h
  next => exact .refl _
  next => exact .refl _

theorem recover_extends (x : Exn) {r r' handler handler' : Result} (hr : ExtendsTo r r')
    (hhandler : ExtendsTo handler handler') :
    ExtendsTo (recover x handler r) (recover x handler' r') := by
  rcases hr with rfl | rfl
  · exact .exhausted
  · unfold recover
    split
    next y =>
      split
      · exact hhandler
      · exact .refl _
    next => exact .refl _

section Calls

variable (hcall : ∀ f args, ExtendsTo (call f args) (call' f args)) (f : Value)

include hcall

theorem mapValues_extends (vs : List Value) :
    ExtendsTo (mapValues call f vs) (mapValues call' f vs) := by
  induction vs with
  | nil => exact .refl _
  | cons v vs ih => exact .bind (hcall f [v]) fun w => .bind ih fun ws => .refl _

theorem filterValues_extends (vs : List Value) :
    ExtendsTo (filterValues call f vs) (filterValues call' f vs) := by
  induction vs with
  | nil => exact .refl _
  | cons v vs ih =>
    refine .bind (hcall f [v]) fun w => ?_
    split
    next => exact .bind ih fun ws => .refl _
    next => exact ih
    next => exact .refl _

theorem foldValues_extends (acc : Value) (vs : List Value) :
    ExtendsTo (foldValues call f acc vs) (foldValues call' f acc vs) := by
  induction vs generalizing acc with
  | nil => exact .refl _
  | cons v vs ih => exact .bind (hcall f [acc, v]) fun acc => ih acc

theorem resolveDefault_extends (exceptions : List Value) (just cons : Value) :
    ExtendsTo (resolveDefault call exceptions just cons)
      (resolveDefault call' exceptions just cons) := by
  refine choose_extends _ (.bind (hcall just [.unit]) fun v => ?_)
  split
  next => exact hcall cons [.unit]
  all_goals exact .refl _

theorem applyOp_extends (compared : Comparison) (o : Op) (args : List Value) :
    ExtendsTo (applyOp compared call o args) (applyOp compared call' o args) := by
  unfold applyOp
  split <;> first
    | exact .refl _
    | exact .bind (mapValues_extends hcall _ _) fun _ => .refl _
    | exact .bind (filterValues_extends hcall _ _) fun _ => .refl _
    | exact foldValues_extends hcall _ _ _
    | exact resolveDefault_extends hcall _ _ _

end Calls

/-- A step has more to go on if its parts do. -/
theorem evalStep_extends (hrun : ∀ e, ExtendsTo (run e) (run' e))
    (hcall : ∀ f args, ExtendsTo (call f args) (call' f args)) (env : Vars) (e : Expr Mark) :
    ExtendsTo (evalStep run call env e) (evalStep run' call' env e) := by
  cases e with
  | var | lit | op | lam | raise | location => exact .refl _
  | tuple es | array es => exact .bind (runAll_extends hrun es) fun _ => .refl _
  | component e | field e | inject _ _ e | assert e => exact .bind (hrun e) fun _ => .refl _
  | record _ fields => exact .bind (runNamed_extends hrun fields) fun _ => .refl _
  | switch e _ cases =>
    refine .bind (hrun e) fun v => ?_
    split
    next _ ctor payload =>
      split
      next c _ => exact .bind (hrun c) fun f => hcall f [payload]
      next => exact .refl _
    next => exact .refl _
  | app f args =>
    exact .bind (hrun f) fun f => .bind (runAll_extends hrun args) fun vs => hcall f vs
  | default exceptions just cons =>
    refine .bind (survivors_extends hrun exceptions) fun found => ?_
    refine choose_extends found (.bind (hrun just) fun v => ?_)
    split
    next => exact hrun cons
    all_goals exact .refl _
  | rescue body x handler => exact recover_extends x (hrun body) (hrun handler)
  | force e => exact recover_extends .empty (hrun e) (.refl _)
  | ite cond yes no =>
    refine .bind (hrun cond) fun v => ?_
    split
    next => exact hrun yes
    next => exact hrun no
    next => exact .refl _

end Steps

section Scopes

variable {run run' : Vars → Expr Mark → Result}
  (hrun : ∀ env e, ExtendsTo (run env e) (run' env e))

include hrun

theorem runLets_extends (env : Vars) (ls : List (ScopeLet Mark)) :
    ExtendsTo (runLets run env ls) (runLets run' env ls) := by
  induction ls generalizing env with
  | nil => exact .refl _
  | cons l ls ih => exact .bind (hrun env l.expr) fun v => ih _

theorem applyStep_extends {call call' : Value → List Value → Result}
    (hcall : ∀ f args, ExtendsTo (call f args) (call' f args)) (compared : Comparison) (f : Value)
    (args : List Value) :
    ExtendsTo (applyStep compared run call f args) (applyStep compared run' call' f args) := by
  unfold applyStep
  split
  next _ params body env =>
    split
    next => exact hrun _ body
    next => exact .refl _
  next _ o => exact applyOp_extends hcall compared o _
  next b env input => exact .bind (runLets_extends hrun _ b.lets) fun env => hrun env b.result
  next => exact .refl _

end Scopes

section Fuel

variable (compared : Comparison)

theorem evalWith_succ (fuel : Nat) :
    (∀ env e, ExtendsTo (evalWith compared fuel env e) (evalWith compared (fuel + 1) env e)) ∧
      ∀ f args, ExtendsTo (applyWith compared fuel f args)
        (applyWith compared (fuel + 1) f args) := by
  induction fuel with
  | zero => exact ⟨fun _ _ => .exhausted, fun _ _ => .exhausted⟩
  | succ fuel ih =>
    obtain ⟨runs, calls⟩ := ih
    exact ⟨fun env e => evalStep_extends (runs env) calls env e,
      fun f args => applyStep_extends runs calls compared f args⟩

/-- A computation that never loses a result to more fuel has one in the end. -/
theorem Settles.of_extends {α : Type} {f : Nat → Except Halt α}
    (h : ∀ m, ExtendsTo (f m) (f (m + 1))) : ∃ r, Settles f r := by
  have more (k m : Nat) (le : k ≤ m) : ExtendsTo (f k) (f m) := by
    induction le with
    | refl => exact .refl _
    | step _ ih => exact ih.trans (h _)
  by_cases ends : ∃ k, f k ≠ .error .exhausted
  · obtain ⟨k, ends⟩ := ends
    exact ⟨f k, k, fun m le => ((more k m le).resolve_left ends).symm⟩
  · have never (m : Nat) : f m = .error .exhausted := not_not.mp fun ne => ends ⟨m, ne⟩
    exact ⟨.error .exhausted, 0, fun m _ => never m⟩

/-- What a function returns does not depend on the fuel, once there is enough of it. Where no amount
is enough, it is that the fuel runs out. -/
theorem exists_returns (f : Value) (args : List Value) : ∃ r, Returns f args r :=
  Settles.of_extends fun m => (evalWith_succ equal m).2 f args

end Fuel

end Ordinance.Eval
