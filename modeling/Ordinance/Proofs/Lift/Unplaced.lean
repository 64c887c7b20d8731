import Ordinance.Lift.Program
import Ordinance.Proofs.Lift.Run
import Ordinance.Proofs.Program.Unplaced

namespace Ordinance

namespace Lift

def Error.unplaced (e : Error) : Error := { e with span := .synthetic }

variable {α β γ δ : Type}

/-- The second computation draws the same numbers, and gives `f` of the result. -/
def Carries (f : α → β) (c : Supply α) (d : Supply β) : Prop := ∀ n, d n = (f (c n).1, (c n).2)

/-- The same of computations that may fail, with one error in different places. -/
def Erases (f : α → β) (x : LiftM α) (y : LiftM β) : Prop :=
  ∀ n, y n = (((x n).1.map f).mapError Error.unplaced, (x n).2)

namespace Carries

variable {f : α → β} {g : γ → δ}

theorem same (c : Supply α) : Carries id c c := fun _ => rfl

theorem pure {a : α} {b : β} (h : f a = b) : Carries f (Pure.pure a) (Pure.pure b) := by
  subst h
  exact fun _ => rfl

theorem bind {c : Supply α} {d : Supply β} {k : α → Supply γ} {l : β → Supply δ}
    (h : Carries f c d) (next : ∀ a, Carries g (k a) (l (f a))) :
    Carries g (c >>= k) (d >>= l) := by
  intro n
  change l (d n).1 (d n).2 = _
  rw [h n]
  exact next _ _

end Carries

namespace Erases

variable {f : α → β} {g : γ → δ}

theorem pure {a : α} {b : β} (h : f a = b) : Erases f (Pure.pure a) (Pure.pure b) := by
  subst h
  exact fun _ => rfl

theorem supply {c : Supply α} {d : Supply β} (h : Carries f c d) : Erases f (liftM c) (liftM d) := by
  intro n
  change (Except.ok (d n).1, (d n).2) = _
  rw [h n]
  rfl

theorem fail (fault : Fault) (span : Span) :
    Erases f (fail fault span) (fail fault .synthetic) := fun _ => rfl

theorem bind {x : LiftM α} {y : LiftM β} {k : α → LiftM γ} {l : β → LiftM δ} (h : Erases f x y)
    (next : ∀ a, Erases g (k a) (l (f a))) : Erases g (x >>= k) (y >>= l) := by
  intro n
  change ExceptT.bindCont l (y n).1 (y n).2 =
    (((ExceptT.bindCont k (x n).1 (x n).2).1.map _).mapError _,
      (ExceptT.bindCont k (x n).1 (x n).2).2)
  rw [h n]
  cases (x n).1 with
  | ok a => exact next a (x n).2
  | error err => rfl

end Erases

section Forms

variable {span : Span} {e f arg body ifAbsent ifPresent just cons init : Expr Mark} {x : Var}
  {es args : List (Expr Mark)}

theorem apply_unplaced (f : Expr Mark) (args : List (Expr Mark)) (span : Span) :
    (apply f args span).unplaced = apply f.unplaced (args.map Expr.unplaced) .synthetic :=
  Expr.mapMarks_app _ _ _

theorem refs_unplaced (xs : List Var) (span : Span) :
    (refs xs span).map Expr.unplaced = refs xs .synthetic := by
  rw [refs, List.map_map]
  rfl

theorem thunk_carries :
    Carries Expr.unplaced (thunk body span) (thunk body.unplaced .synthetic) :=
  (Carries.same _).bind fun _ => .pure rfl

theorem inspect_carries : Carries Expr.unplaced (inspect arg ifAbsent x ifPresent span)
    (inspect arg.unplaced ifAbsent.unplaced x ifPresent.unplaced .synthetic) :=
  thunk_carries.bind fun _ => .pure (Expr.mapMarks_switch _ _ _ _)

theorem bind_carries : Carries Expr.unplaced (bind x arg body span)
    (bind x arg.unplaced body.unplaced .synthetic) :=
  inspect_carries

theorem bindFresh_carries {g g' : Var → Supply (Expr Mark)}
    (h : ∀ x, Carries Expr.unplaced (g x) (g' x)) :
    Carries Expr.unplaced (bindFresh arg g span) (bindFresh arg.unplaced g' .synthetic) :=
  (Carries.same _).bind fun x => (h x).bind fun _ => bind_carries

theorem bindEach_carries (xs : List Var) : Carries Expr.unplaced (bindEach body span (xs.zip args))
    (bindEach body.unplaced .synthetic (xs.zip (args.map Expr.unplaced))) := by
  induction args generalizing xs with
  | nil =>
    rw [List.map_nil, List.zip_nil_right]
    exact .pure rfl
  | cons arg args ih =>
    cases xs with
    | nil => exact .pure rfl
    | cons x xs => exact (ih xs).bind fun _ => bind_carries

theorem bindAll_carries {g g' : List Var → Expr Mark} (h : ∀ xs, (g xs).unplaced = g' xs) :
    Carries Expr.unplaced (bindAll args (fun xs => (return g xs : Supply (Expr Mark))) span)
      (bindAll (args.map Expr.unplaced) (fun xs => (return g' xs : Supply (Expr Mark)))
        .synthetic) := by
  rw [bindAll, bindAll, List.length_map]
  refine (Carries.same _).bind fun xs => ?_
  refine Carries.bind (.pure (h xs)) fun _ => bindEach_carries xs

theorem applyAll_carries : Carries Expr.unplaced (applyAll f args span)
    (applyAll f.unplaced (args.map Expr.unplaced) .synthetic) := by
  refine bindAll_carries fun xs => ?_
  rw [apply_unplaced, refs_unplaced]

theorem mapAll_carries : Carries Expr.unplaced (mapAll f args span)
    (mapAll f.unplaced (args.map Expr.unplaced) .synthetic) := by
  refine bindAll_carries fun xs => ?_
  rw [← refs_unplaced xs span, ← apply_unplaced]
  rfl

theorem unwrap_carries : Carries Expr.unplaced (unwrap arg span) (unwrap arg.unplaced .synthetic) :=
  (Carries.same _).bind fun _ => inspect_carries

theorem rescueEmpty_carries {handler : Expr Mark} :
    Carries Expr.unplaced (rescueEmpty body handler span)
      (rescueEmpty body.unplaced handler.unplaced .synthetic) :=
  (Carries.same _).bind fun _ => inspect_carries

theorem force_carries : Carries Expr.unplaced (force e span) (force e.unplaced .synthetic) :=
  unwrap_carries.bind fun _ => .pure rfl

theorem default_carries : Carries Expr.unplaced (default es just cons span)
    (default (es.map Expr.unplaced) just.unplaced cons.unplaced .synthetic) := by
  refine thunk_carries.bind fun j => thunk_carries.bind fun c => .pure ?_
  rw [apply_unplaced]
  exact congrArg (apply _ [·, _, _] _) (Expr.mapMarks_array es _)

theorem tuple_carries :
    Carries Expr.unplaced (tuple es span) (tuple (es.map Expr.unplaced) .synthetic) := by
  refine bindAll_carries fun xs => congrArg (wrap · _) ?_
  rw [← refs_unplaced xs span]
  exact Expr.mapMarks_tuple _ _

theorem wrapped_unplaced (xs : List Var) (span : Span) :
    (xs.map fun x => wrap (ref x span) span).map Expr.unplaced =
      xs.map fun x => wrap (ref x .synthetic) .synthetic := by
  rw [List.map_map]
  rfl

theorem array_carries :
    Carries Expr.unplaced (array es span) (array (es.map Expr.unplaced) .synthetic) := by
  refine bindAll_carries fun xs => congrArg (wrap · _) ?_
  rw [← wrapped_unplaced xs span]
  exact Expr.mapMarks_array _ _

theorem record_carries {struct : String} {fields : List (String × Expr Mark)} :
    Carries Expr.unplaced (record struct fields span)
      (record struct (fields.map fun x => (x.1, x.2.unplaced)) .synthetic) := by
  have names : (fields.map fun x => (x.1, x.2.unplaced)).map (·.1) = fields.map (·.1) := by simp
  have values : (fields.map fun x => (x.1, x.2.unplaced)).map (·.2) =
    (fields.map (·.2)).map Expr.unplaced := by simp
  rw [record, record, names, values]
  refine bindAll_carries fun xs => congrArg (wrap · _) ?_
  refine (Expr.mapMarks_record _ _ _).trans (congrArg (Expr.record struct · _) ?_)
  rw [← wrapped_unplaced xs span]
  exact List.zip_map_right.symm

theorem component_carries {index size : Nat} : Carries Expr.unplaced (component e index size span)
    (component e.unplaced index size .synthetic) :=
  bindFresh_carries fun _ => .pure rfl

theorem field_carries {struct name : String} : Carries Expr.unplaced (field e struct name span)
    (field e.unplaced struct name .synthetic) :=
  bindFresh_carries fun _ => .pure rfl

theorem inject_carries {enum ctor : String} : Carries Expr.unplaced (inject enum ctor e span)
    (inject enum ctor e.unplaced .synthetic) :=
  bindFresh_carries fun _ => .pure rfl

theorem assert_carries : Carries Expr.unplaced (assert e span) (assert e.unplaced .synthetic) :=
  bindFresh_carries fun _ => .pure rfl

theorem switch_carries {enum : String} {cases : List (String × Expr Mark)} :
    Carries Expr.unplaced (switch e enum cases span)
      (switch e.unplaced enum (cases.map fun x => (x.1, x.2.unplaced)) .synthetic) :=
  bindFresh_carries fun _ => .pure (Expr.mapMarks_switch _ _ _ _)

theorem ite_carries {yes no : Expr Mark} : Carries Expr.unplaced (ite e yes no span)
    (ite e.unplaced yes.unplaced no.unplaced .synthetic) :=
  bindFresh_carries fun _ => .pure rfl

theorem operator_carries {o : Op} :
    Carries Expr.unplaced (operator o span) (operator o .synthetic) := by
  refine (Carries.same _).bind fun xs => .pure ?_
  rw [id, ← refs_unplaced xs span]
  exact congrArg (fun body => wrap (lambda xs _ (wrap body _) _) _) (apply_unplaced _ _ _)

theorem call_carries : Carries Expr.unplaced (call f es span)
    (call f.unplaced (es.map Expr.unplaced) .synthetic) :=
  bindFresh_carries fun _ => applyAll_carries

theorem scopeCall_unplaced (target : Var) (struct : String) (fields : List (String × Expr Mark))
    (argSpan span : Span) : (scopeCall target struct fields argSpan span).unplaced =
      scopeCall target struct (fields.map fun x => (x.1, x.2.unplaced)) .synthetic .synthetic := by
  refine congrArg (wrap · _) ((apply_unplaced _ _ _).trans ?_)
  exact congrArg (apply _ [·] _) (Expr.mapMarks_record _ _ _)

theorem onElement_carries {g : Var} :
    Carries Expr.unplaced (onElement g x span) (onElement g x .synthetic) :=
  bindFresh_carries fun _ => .pure (apply_unplaced _ _ _)

theorem map_carries {xs : Expr Mark} :
    Carries Expr.unplaced (map f xs span) (map f.unplaced xs.unplaced .synthetic) := by
  refine bindFresh_carries fun f => bindFresh_carries fun xs => (Carries.same _).bind fun x => ?_
  exact onElement_carries.bind fun body => .pure (congrArg (wrap · _) (apply_unplaced _ _ _))

theorem filter_carries {xs : Expr Mark} :
    Carries Expr.unplaced (filter f xs span) (filter f.unplaced xs.unplaced .synthetic) := by
  refine bindFresh_carries fun f => bindFresh_carries fun xs => (Carries.same _).bind fun x => ?_
  refine onElement_carries.bind fun body => unwrap_carries.bind fun body => ?_
  exact .pure (congrArg (wrap · _) (apply_unplaced _ _ _))

theorem foldWith_carries {o : Op} {xs : Expr Mark} :
    Carries Expr.unplaced (foldWith o f init xs span)
      (foldWith o f.unplaced init.unplaced xs.unplaced .synthetic) := by
  refine bindFresh_carries fun f => bindFresh_carries fun xs => ?_
  refine (Carries.same _).bind fun acc => (Carries.same _).bind fun x => ?_
  exact applyAll_carries.bind fun body => .pure (apply_unplaced _ _ _)

theorem listCall_erases {o : Op} :
    Erases Expr.unplaced (listCall o es span) (listCall o (es.map Expr.unplaced) .synthetic) := by
  cases o with
  | map =>
    rcases es with _ | ⟨f, _ | ⟨xs, _ | ⟨y, ys⟩⟩⟩
    case cons.cons.nil => exact .supply map_carries
    all_goals exact .fail _ span
  | filter =>
    rcases es with _ | ⟨f, _ | ⟨xs, _ | ⟨y, ys⟩⟩⟩
    case cons.cons.nil => exact .supply filter_carries
    all_goals exact .fail _ span
  | fold | reduce =>
    rcases es with _ | ⟨f, _ | ⟨init, _ | ⟨xs, _ | ⟨y, ys⟩⟩⟩⟩
    case cons.cons.cons.nil => exact .supply foldWith_carries
    all_goals exact .fail _ span
  | _ => exact .fail _ span

end Forms

section Expressions

variable {ctx : Ctx} {e : Expr Mark} {es : List (Expr Mark)}

/-- The expression is lifted in the same way without places. -/
def Blind (e : Expr Mark) : Prop :=
  ∀ ctx : Ctx, Erases Expr.unplaced (e.lift ctx) (e.unplaced.lift ctx)

theorem lookup_erases (v : Var) (span : Span) :
    Erases id (ctx.lookup v span) (ctx.lookup v .synthetic) := by
  unfold Ctx.lookup
  split
  · exact .pure rfl
  · exact .fail _ span

theorem liftAll_erases (h : ∀ e ∈ es, Blind e) :
    Erases (List.map Expr.unplaced) (Expr.liftAll ctx es)
      (Expr.liftAll ctx (es.map Expr.unplaced)) := by
  induction es with
  | nil => exact .pure rfl
  | cons e es ih =>
    obtain ⟨head, tail⟩ := List.forall_mem_cons.mp h
    exact (head ctx).bind fun _ => (ih tail).bind fun _ => .pure rfl

theorem liftNamed_erases {fields : List (String × Expr Mark)}
    (h : ∀ e ∈ fields.map (·.2), Blind e) :
    Erases (List.map fun x => (x.1, x.2.unplaced)) (Expr.liftNamed ctx fields)
      (Expr.liftNamed ctx (fields.map fun x => (x.1, x.2.unplaced))) := by
  induction fields with
  | nil => exact .pure rfl
  | cons x fields ih =>
    obtain ⟨head, tail⟩ := List.forall_mem_cons.mp h
    exact (head ctx).bind fun _ => (ih tail).bind fun _ => .pure rfl

theorem liftCases_erases {cases : List (String × Expr Mark)}
    (h : ∀ c ∈ cases.map (·.2), ∀ d ∈ c.children, Blind d) :
    Erases (List.map fun x => (x.1, x.2.unplaced)) (Expr.liftCases ctx cases)
      (Expr.liftCases ctx (cases.map fun x => (x.1, x.2.unplaced))) := by
  induction cases with
  | nil => exact .pure rfl
  | cons x cases ih =>
    obtain ⟨here, rest⟩ := List.forall_mem_cons.mp h
    obtain ⟨name, c⟩ := x
    cases c with
    | lam vs tys body m =>
      rcases vs with _ | ⟨v, _ | ⟨w, vs⟩⟩
      · exact .fail _ m.span
      · refine (Erases.supply (Carries.same (ctx.bind v .payload))).bind fun r => ?_
        refine (here body List.mem_cons_self r.1).bind fun _ => (ih rest).bind fun _ => ?_
        exact .pure rfl
      · exact .fail _ m.span
    | _ => exact .fail _ _

theorem calledScope_erases (f : Expr Mark) :
    Erases id (ctx.calledScope f) (ctx.calledScope f.unplaced) := by
  cases f with
  | var v m => exact (lookup_erases v m.span).bind fun b => .pure rfl
  | _ => exact .pure rfl

/-- The head of a function that delays its body. -/
def delays : Expr.Head → Bool
  | .lam [_] (.base .unit :: _) => true
  | _ => false

theorem eq_lam_of_delays (h : delays e.head = true) :
    ∃ v tys body m, e = .lam [v] (.base .unit :: tys) body m := by
  cases e with
  | lam params tys body m =>
    rw [Expr.head] at h
    unfold delays at h
    split at h
    next eq =>
      cases eq
      exact ⟨_, _, body, m, rfl⟩
    next => cases h
  | _ => cases h

/-- Whether a call asks for a delayed value is seen from the heads and the type of its parts. -/
theorem forces_eq (f : Expr Mark) (args : List (Expr Mark)) : forces f args =
    (decide (args.map Expr.head = [.lit .unit]) && (delays f.head || f.mark.ty.isThunk)) := by
  unfold forces
  split
  next => rfl
  next notDelayed =>
    have plain : delays f.head = false := by
      by_contra delayed
      obtain ⟨v, tys, body, m, eq⟩ := eq_lam_of_delays (Bool.of_not_eq_false delayed)
      exact notDelayed v tys body m eq
    rw [plain]
    rfl
  next notUnit _ =>
    have other : args.map Expr.head ≠ [.lit .unit] := by
      intro heads
      obtain ⟨a, rfl⟩ := List.length_eq_one_iff.mp (by simpa using congrArg List.length heads)
      cases a with
      | lit l m =>
        cases List.cons.inj heads |>.1
        exact notUnit m rfl
      | _ => cases heads
    simp [other]

theorem forces_unplaced (f : Expr Mark) (args : List (Expr Mark)) :
    forces f.unplaced (args.map Expr.unplaced) = forces f args := by
  have heads : (args.map Expr.unplaced).map Expr.head = args.map Expr.head := by
    rw [List.map_map]
    exact List.map_congr_left fun a _ => a.head_mapMarks
  rw [forces_eq, forces_eq, heads, Expr.unplaced, Expr.head_mapMarks, Expr.mark_mapMarks]
  rfl

section Nodes

theorem var_blind (v : Var) (m : Mark) : Blind (.var v m) := by
  intro ctx
  refine (lookup_erases v m.span).bind fun b => ?_
  dsimp only [id]
  split
  · exact .pure rfl
  · exact .pure rfl
  · exact .fail _ m.span

theorem lam_blind {params : List Var} {tys : List Ty} {body : Expr Mark} (m : Mark)
    (h : Blind body) : Blind (.lam params tys body m) := by
  intro ctx
  by_cases delays : ∃ v rest, params = [v] ∧ tys = .unit :: rest
  · obtain ⟨v, rest, rfl, rfl⟩ := delays
    exact h ctx
  · have plain : ∀ v rest, ¬ (params = [v] ∧ tys = .unit :: rest) :=
      fun v rest both => delays ⟨v, rest, both⟩
    rw [lift_lam plain, Expr.unplaced, Expr.mapMarks, Expr.retype, lift_lam plain]
    refine (Erases.supply (Carries.same (ctx.bindParams params))).bind fun r => ?_
    exact (h r.1).bind fun _ => .pure rfl

theorem app_blind {f : Expr Mark} {args : List (Expr Mark)} (m : Mark)
    (h : ∀ d ∈ f :: args, Blind d) (below : ∀ d ∈ args, ∀ c ∈ d.children, Blind c) :
    Blind (.app f args m) := by
  intro ctx
  obtain ⟨hf, hargs⟩ := List.forall_mem_cons.mp h
  rw [Expr.unplaced_app]
  by_cases isOp : ∃ o i, f = .op o i
  · obtain ⟨o, i, rfl⟩ := isOp
    have operator : (Expr.op o i).unplaced = .op o i.unplaced := rfl
    rw [operator]
    have count : (args.map Expr.unplaced).length = args.length := List.length_map _
    by_cases higher : o.isHigherOrder = true
    · by_cases length : args.length = o.arity
      · rw [lift_listCall higher length, lift_listCall higher (count.trans length)]
        exact (liftAll_erases hargs).bind fun _ => listCall_erases
      · rw [lift_listCall_of_length_ne higher length,
          lift_listCall_of_length_ne higher (count ▸ length)]
        exact .fail _ m.span
    · by_cases handler : o = .resolveDefault
      · subst handler
        exact .fail _ m.span
      · have first : (o.isHigherOrder || o == .resolveDefault) = false := by simp [higher, handler]
        rw [lift_call first, lift_call first]
        exact (liftAll_erases hargs).bind fun _ => .supply mapAll_carries
  · have notOp : ∀ o i, f ≠ .op o i := fun o i eq => isOp ⟨o, i, eq⟩
    have notOp' : ∀ o i, f.unplaced ≠ .op o i := by
      intro o i eq
      have head : f.head = .op o := (f.head_mapMarks).symm.trans (congrArg Expr.head eq)
      cases f with
      | op o' i' => exact notOp o' i' rfl
      | _ => cases head
    rw [lift_app notOp, lift_app notOp']
    refine (calledScope_erases f).bind fun r => ?_
    rcases r with _ | ⟨v, target⟩
    · dsimp only [id]
      rw [forces_unplaced]
      split
      · exact hf ctx
      · refine (hf ctx).bind fun _ => (liftAll_erases hargs).bind fun _ => ?_
        exact .supply call_carries
    · rcases args with _ | ⟨a, rest⟩
      · exact .fail _ m.span
      · cases a with
        | record struct fields k =>
          cases rest with
          | nil =>
            rw [List.map_singleton, Expr.unplaced, Expr.mapMarks_record]
            refine (liftNamed_erases (below _ List.mem_cons_self)).bind fun _ => ?_
            exact .pure (scopeCall_unplaced _ _ _ _ _)
          | cons b rest => exact .fail _ m.span
        | _ => exact .fail _ m.span

end Nodes

/-- Lifting does not look at places: by induction on the expression, one form after another. -/
theorem lift_erases (e : Expr Mark) : Blind e := by
  induction e using Expr.inductTwo with
  | node e ih below =>
    intro ctx
    cases e with
    | var v m => exact var_blind v m ctx
    | lam params tys body m => exact lam_blind m (ih body List.mem_cons_self) ctx
    | app f args m =>
      exact app_blind m ih (fun d hd => below d (List.mem_cons_of_mem f hd)) ctx
    | lit l m => exact .pure rfl
    | raise x m => cases x <;> exact .pure rfl
    | op o m =>
      rw [Expr.unplaced, Expr.mapMarks, Expr.retype, Expr.lift, Expr.lift]
      split
      · exact .fail _ m.span
      · exact .supply operator_carries
    | location l m => exact .fail _ m.span
    | rescue body x handler m =>
      obtain ⟨hb, hh⟩ : Blind body ∧ Blind handler := by simpa [Expr.children] using ih
      cases x with
      | empty => exact (hb ctx).bind fun _ => (hh ctx).bind fun _ => .supply rescueEmpty_carries
      | _ => exact (hb ctx).bind fun _ => (hh ctx).bind fun _ => .pure rfl
    | force e m => exact (ih e List.mem_cons_self ctx).bind fun _ => .supply force_carries
    | component e index size m =>
      exact (ih e List.mem_cons_self ctx).bind fun _ => .supply component_carries
    | field e struct name m =>
      exact (ih e List.mem_cons_self ctx).bind fun _ => .supply field_carries
    | inject enum ctor e m =>
      exact (ih e List.mem_cons_self ctx).bind fun _ => .supply inject_carries
    | assert e m => exact (ih e List.mem_cons_self ctx).bind fun _ => .supply assert_carries
    | tuple es m =>
      rw [Expr.unplaced, Expr.mapMarks_tuple]
      exact (liftAll_erases ih).bind fun _ => .supply tuple_carries
    | array es m =>
      rw [Expr.unplaced, Expr.mapMarks_array]
      exact (liftAll_erases ih).bind fun _ => .supply array_carries
    | record struct fields m =>
      rw [Expr.unplaced, Expr.mapMarks_record]
      exact (liftNamed_erases ih).bind fun _ => .supply record_carries
    | ite cond yes no m =>
      obtain ⟨hc, hy, hn⟩ : Blind cond ∧ Blind yes ∧ Blind no := by simpa [Expr.children] using ih
      refine (hc ctx).bind fun _ => (hy ctx).bind fun _ => (hn ctx).bind fun _ => ?_
      exact .supply ite_carries
    | default es just cons m =>
      obtain ⟨hes, hj, hc⟩ : (∀ e ∈ es, Blind e) ∧ Blind just ∧ Blind cons := by
        simpa [Expr.children, or_imp, forall_and] using ih
      rw [Expr.unplaced, Expr.mapMarks_default]
      refine (liftAll_erases hes).bind fun _ => (hj ctx).bind fun _ => (hc ctx).bind fun _ => ?_
      exact .supply default_carries
    | switch e enum cases m =>
      obtain ⟨he, _⟩ := List.forall_mem_cons.mp ih
      obtain ⟨_, bodies⟩ := List.forall_mem_cons.mp below
      rw [Expr.unplaced, Expr.mapMarks_switch]
      refine (he ctx).bind fun _ => (liftCases_erases bodies).bind fun _ => ?_
      exact .supply switch_carries

end Expressions

section Programs

variable {ctx : Ctx}

theorem letExpr_erases (l : ScopeLet Mark) :
    Erases (fun r => (r.1.unplaced, r.2)) (letExpr ctx l) (letExpr ctx l.unplaced) := by
  obtain ⟨v, role, ty, e, span⟩ := l
  cases role with
  | callInput =>
    cases e with
    | force e m =>
      exact (lift_erases e ctx).bind fun _ => (Erases.supply unwrap_carries).bind fun _ => .pure rfl
    | lam params tys body m =>
      -- a delayed value has one parameter, of the unit type
      rcases params with _ | ⟨w, _ | ⟨w', ws⟩⟩
      · exact .fail _ span
      · rcases tys with _ | ⟨t, tys⟩
        · exact .fail _ span
        · cases t with
          | base b =>
            cases b with
            | unit => exact (lift_erases body ctx).bind fun _ => .pure rfl
            | _ => exact .fail _ span
          | _ => exact .fail _ span
      · exact .fail _ span
    | _ => exact .fail _ span
  | _ => exact (lift_erases e ctx).bind fun _ => .pure rfl

theorem scopeLet_erases (l : ScopeLet Mark) :
    Erases (fun r => (r.1, r.2.unplaced)) (l.lift ctx) (l.unplaced.lift ctx) :=
  (letExpr_erases l).bind fun r =>
    (Erases.supply (Carries.same (ctx.bind l.var r.2))).bind fun _ => .pure rfl

theorem lets_erases (ls : List (ScopeLet Mark)) :
    Erases (fun r => (r.1, r.2.map ScopeLet.unplaced)) (lets ctx ls)
      (lets ctx (ls.map ScopeLet.unplaced)) := by
  induction ls generalizing ctx with
  | nil => exact .pure rfl
  | cons l ls ih => exact (scopeLet_erases l).bind fun _ => ih.bind fun _ => .pure rfl

theorem result_erases (e : Expr Mark) :
    Erases Expr.unplaced (result ctx e) (result ctx e.unplaced) := by
  cases e with
  | record struct fields m =>
    rw [Expr.unplaced, Expr.mapMarks_record]
    refine (liftNamed_erases fun e _ => lift_erases e).bind fun _ => ?_
    exact .pure (Expr.mapMarks_record _ _ _)
  | _ => exact .fail _ _

theorem item_erases (i : Item Mark) :
    Erases (fun r => (r.1, r.2.unplaced)) (i.lift ctx) (i.unplaced.lift ctx) := by
  cases i with
  | definition d =>
    refine (lift_erases d.expr ctx).bind fun _ => ?_
    exact (Erases.supply (Carries.same (ctx.bind d.var .option))).bind fun _ => .pure rfl
  | scope s =>
    have body : Erases ScopeBody.unplaced (s.body.lift ctx) (s.body.unplaced.lift ctx) := by
      refine (Erases.supply (Carries.same (ctx.bind s.body.inputVar .payload))).bind fun r => ?_
      refine (lets_erases s.body.lets).bind fun r => ?_
      exact (result_erases s.body.result).bind fun _ => .pure rfl
    refine body.bind fun _ => ?_
    exact (Erases.supply (Carries.same (ctx.bind s.var .scope))).bind fun _ => .pure rfl

theorem items_erases (is : List (Item Mark)) :
    Erases (List.map Item.unplaced) (items ctx is) (items ctx (is.map Item.unplaced)) := by
  induction is generalizing ctx with
  | nil => exact .pure rfl
  | cons i is ih => exact (item_erases i).bind fun _ => ih.bind fun _ => .pure rfl

theorem program_erases (p : Program Mark) : Erases Program.unplaced p.lift p.unplaced.lift :=
  (items_erases p.items).bind fun _ => .pure rfl

end Programs

end Lift

end Ordinance
