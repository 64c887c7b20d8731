import Mathlib.Data.List.Nodup
import Ordinance.Lift.Expr

namespace Ordinance.Lift

variable {α β : Type} {n : Nat} {Q : α → Nat → Prop} {R : β → Nat → Prop}

/-- The computation draws numbers from `n` upwards; its result and the number to go on from are as
stated. -/
def Draws (n : Nat) (c : Supply α) (Q : α → Nat → Prop) : Prop := n ≤ (c n).2 ∧ Q (c n).1 (c n).2

/-- The same of a computation that may fail, where it does not. -/
def Lifts (n : Nat) (x : LiftM α) (Q : α → Nat → Prop) : Prop :=
  ∀ a m, x n = (.ok a, m) → n ≤ m ∧ Q a m

namespace Draws

variable {c : Supply α} {f : α → Supply β}

theorem pure {a : α} (h : Q a n) : Draws n (pure a) Q := ⟨Nat.le_refl n, h⟩

theorem bind (hc : Draws n c Q) (h : ∀ a m, n ≤ m → Q a m → Draws m (f a) R) :
    Draws n (c >>= f) R := by
  obtain ⟨le, result⟩ := hc
  obtain ⟨le', result'⟩ := h _ _ le result
  exact ⟨Nat.le_trans le le', result'⟩

theorem imp {Q' : α → Nat → Prop} (hc : Draws n c Q) (h : ∀ a m, n ≤ m → Q a m → Q' a m) :
    Draws n c Q' :=
  ⟨hc.1, h _ _ hc.1 hc.2⟩

theorem run (hc : Draws n c Q) : Draws n c fun a m => Q a m ∧ c n = (a, m) := ⟨hc.1, hc.2, rfl⟩

theorem fresh (name : String) : Draws n (fresh name) fun x m => x.id = n ∧ m = n + 1 :=
  ⟨Nat.le_succ n, rfl, rfl⟩

/-- New variables differ from each other, and from those numbered below. -/
theorem freshMany (name : String) (count : Nat) : Draws n (freshMany name count) fun xs m =>
    xs.length = count ∧ xs.Nodup ∧ ∀ x ∈ xs, n ≤ x.id ∧ x.id < m := by
  induction count generalizing n with
  | zero => exact .pure ⟨rfl, .nil, nofun⟩
  | succ count ih =>
    refine .bind (fresh name) fun x m le hx => ?_
    obtain ⟨rfl, rfl⟩ := hx
    refine .bind ih fun xs m le' hxs => .pure ?_
    obtain ⟨length, nodup, bounds⟩ := hxs
    have new : x ∉ xs := fun mem => Nat.lt_irrefl _ (bounds x mem).1
    refine ⟨congrArg (· + 1) length, List.nodup_cons.mpr ⟨new, nodup⟩, ?_⟩
    refine List.forall_mem_cons.mpr ⟨⟨Nat.le_refl _, le'⟩, fun y hy => ?_⟩
    exact ⟨Nat.le_trans le (bounds y hy).1, (bounds y hy).2⟩

end Draws

namespace Lifts

variable {x : LiftM α} {f : α → LiftM β}

theorem pure {a : α} (h : Q a n) : Lifts n (pure a) Q := by
  intro b m run
  cases run
  exact ⟨Nat.le_refl n, h⟩

theorem bind (hx : Lifts n x Q) (h : ∀ a m, n ≤ m → Q a m → Lifts m (f a) R) :
    Lifts n (x >>= f) R := by
  intro b k run
  change ExceptT.bindCont f (x n).1 (x n).2 = _ at run
  rcases first : x n with ⟨r, m⟩
  rw [first] at run
  cases r with
  | error err => cases run
  | ok a =>
    obtain ⟨le, result⟩ := hx a m first
    obtain ⟨le', result'⟩ := h a m le result b k run
    exact ⟨Nat.le_trans le le', result'⟩

theorem imp {Q' : α → Nat → Prop} (hx : Lifts n x Q) (h : ∀ a m, n ≤ m → Q a m → Q' a m) :
    Lifts n x Q' :=
  fun a m run => ⟨(hx a m run).1, h a m (hx a m run).1 (hx a m run).2⟩

theorem run (hx : Lifts n x Q) : Lifts n x fun a m => Q a m ∧ x n = (.ok a, m) :=
  fun a m eq => ⟨(hx a m eq).1, (hx a m eq).2, eq⟩

theorem supply {c : Supply α} (hc : Draws n c Q) : Lifts n (liftM c) Q := by
  intro a m run
  cases run
  exact hc

theorem fail {fault : Fault} {span : Span} : Lifts n (Lift.fail fault span : LiftM α) Q := nofun

end Lifts

section Equations

variable {ctx : Ctx} {m k : Mark} {f : Expr Mark} {args : List (Expr Mark)} {o : Op}

theorem lookup_lifts (v : Var) (span : Span) :
    Lifts n (ctx.lookup v span) fun b m => m = n ∧ ctx.get? v = some b := by
  unfold Ctx.lookup
  split
  next found => exact .pure ⟨rfl, found⟩
  next => exact .fail

theorem lift_lam {params : List Var} {tys : List Ty} {body : Expr Mark}
    (h : ∀ v rest, ¬ (params = [v] ∧ tys = .unit :: rest)) :
    Expr.lift ctx (.lam params tys body m) = liftM (ctx.bindParams params) >>= fun r =>
      body.lift r.1 >>= fun body =>
        pure (wrap (lambda r.2 (Ty.liftAll tys) body m.span) m.span) := by
  match params, tys, h with
  | [], _, _ => rfl
  | [v], [], _ => rfl
  | [v], t :: rest, h =>
    cases t with
    | base b => cases b <;> first | rfl | exact absurd ⟨rfl, rfl⟩ (h v rest)
    | _ => rfl
  | _ :: _ :: _, _, _ => rfl

theorem calledScope_lifts (f : Expr Mark) :
    Lifts n (ctx.calledScope f) fun r m => m = n ∧ ∀ v target, r = some (v, target) →
      ∃ k b, f = .var v k ∧ ctx.get? v = some b ∧ b.mode = .scope ∧ b.target = target := by
  cases f with
  | var v k =>
    refine .bind (lookup_lifts v k.span) fun b _ _ found => .pure ⟨found.1, fun w target eq => ?_⟩
    split at eq
    next scope =>
      cases eq
      exact ⟨k, b, rfl, found.2, scope, rfl⟩
    next => cases eq
  | _ => exact .pure ⟨rfl, nofun⟩

theorem forces_of_isThunk (h : f.mark.ty.isThunk = true) :
    forces f [.lit .unit k] = true := by
  unfold forces
  split
  next => rfl
  next eq =>
    cases eq
    exact h
  next ne _ => exact absurd rfl (ne k)

theorem eq_of_forces (h : forces f args = true) : ∃ k, args = [.lit .unit k] := by
  unfold forces at h
  split at h
  next => exact ⟨_, rfl⟩
  next => exact ⟨_, rfl⟩
  next => cases h

theorem lift_app (h : ∀ o k, f ≠ .op o k) :
    Expr.lift ctx (.app f args m) = ctx.calledScope f >>= fun
      | some (v, target) =>
          match args with
          | [.record struct fields k] => Expr.liftNamed ctx fields >>= fun fields =>
              pure (scopeCall target struct fields k.span m.span)
          | _ => fail (.scopeCallShape v.render) m.span
      | none =>
          if forces f args then f.lift ctx
          else f.lift ctx >>= fun f => Expr.liftAll ctx args >>= fun args =>
            liftM (call f args m.span) := by
  rewrite [Expr.lift]
  · rfl
  · exact h .resolveDefault
  · exact h

theorem lift_call (first : (o.isHigherOrder || o == .resolveDefault) = false) :
    Expr.lift ctx (.app (.op o k) args m) = Expr.liftAll ctx args >>= fun args =>
      liftM (mapAll (.op o (.erased m.span)) args m.span) := by
  cases o <;> first | rfl | cases first

theorem lift_listCall (higher : o.isHigherOrder = true) (length : args.length = o.arity) :
    Expr.lift ctx (.app (.op o k) args m) = Expr.liftAll ctx args >>= fun args =>
      listCall o args m.span := by
  cases o <;> first | exact if_pos length | cases higher

theorem lift_listCall_of_length_ne (higher : o.isHigherOrder = true)
    (length : args.length ≠ o.arity) :
    Expr.lift ctx (.app (.op o k) args m) = fail (.partialApplication o) m.span := by
  cases o <;> first | exact if_neg length | cases higher

end Equations

section Forms

variable {ctx : Ctx} {m : Mark} {f : Expr Mark} {args : List (Expr Mark)}
  {Q : Expr Mark → Nat → Prop}

theorem lam_lifts {params : List Var} {tys : List Ty} {body : Expr Mark}
    (delayed : Lifts n (body.lift ctx) Q)
    (function : Lifts n (liftM (ctx.bindParams params) >>= fun r => body.lift r.1 >>= fun body =>
      pure (wrap (lambda r.2 (Ty.liftAll tys) body m.span) m.span)) Q) :
    Lifts n (Expr.lift ctx (.lam params tys body m)) Q := by
  by_cases delays : ∃ v rest, params = [v] ∧ tys = .unit :: rest
  · obtain ⟨v, rest, rfl, rfl⟩ := delays
    exact delayed
  · rw [lift_lam fun v rest both => delays ⟨v, rest, both⟩]
    exact function

theorem opCall_lifts {o : Op} {k : Mark}
    (list : o.isHigherOrder = true → args.length = o.arity →
      Lifts n (Expr.liftAll ctx args >>= fun args => listCall o args m.span) Q)
    (other : o ≠ .resolveDefault → Lifts n (Expr.liftAll ctx args >>= fun args =>
      liftM (mapAll (.op o (.erased m.span)) args m.span)) Q) :
    Lifts n (Expr.lift ctx (.app (.op o k) args m)) Q := by
  by_cases higher : o.isHigherOrder = true
  · by_cases length : args.length = o.arity
    · rw [lift_listCall higher length]
      exact list higher length
    · rw [lift_listCall_of_length_ne higher length]
      exact .fail
  · by_cases handler : o = .resolveDefault
    · subst handler
      exact .fail
    · rw [lift_call (by simp [higher, handler])]
      exact other handler

/-- What is called is a scope, a delayed value or a function. -/
theorem call_lifts (notOp : ∀ o k, f ≠ .op o k)
    (scope : ∀ v i b struct fields k, f = .var v i → ctx.get? v = some b → b.mode = .scope →
      args = [.record struct fields k] → Lifts n (Expr.liftNamed ctx fields >>= fun fields =>
        pure (scopeCall b.target struct fields k.span m.span)) Q)
    (delayed : forces f args = true → Lifts n (f.lift ctx) Q)
    (function : forces f args = false → Lifts n (f.lift ctx >>= fun f =>
      Expr.liftAll ctx args >>= fun args => liftM (call f args m.span)) Q) :
    Lifts n (Expr.lift ctx (.app f args m)) Q := by
  rw [lift_app notOp]
  refine .bind (calledScope_lifts f) fun r k _ hr => ?_
  obtain ⟨rfl, hr⟩ := hr
  cases r with
  | some p =>
    obtain ⟨i, b, rfl, bound, mode, target⟩ := hr p.1 p.2 rfl
    dsimp only
    split
    next _ struct fields k => exact target ▸ scope p.1 i b struct fields k rfl bound mode rfl
    next => exact .fail
  | none =>
    dsimp only
    split
    next forced => exact delayed forced
    next other => exact function (Bool.eq_false_iff.mpr other)

end Forms

end Ordinance.Lift
