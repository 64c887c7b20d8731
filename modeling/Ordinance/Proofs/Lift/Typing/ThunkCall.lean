import Ordinance.Proofs.Lift.Hygiene.Expr
import Ordinance.Proofs.Lift.Typing.Check
import Ordinance.Proofs.Typing.Exact
import Ordinance.Proofs.Typing.Filled
import Ordinance.Proofs.Typing.Free

namespace Ordinance.Lift

open Typing

variable {decls : Decls} {env : Env} {Γ : Dict Var Ty} {e f a arg body : Expr Mark} {x : Var}
  {r w : Ty} {span : Span} {n : Nat}

/-- The checker accepts what has an instance of the type that is asked for, and nothing else. -/
theorem check_ok_iff (ordered : e.Ordered) :
    (∃ t, e.check decls env w = .ok t) ↔ ∃ u, w.Admits u ∧ HasTy Ty.Admits decls env ∅ e u := by
  constructor
  · rintro ⟨t, checked⟩
    obtain ⟨typed, admits, root⟩ := check_hasTy ordered checked
    exact ⟨_, root, typed.opened admits⟩
  · rintro ⟨u, admits, typed⟩
    exact check_of_hasTy typed admits

section Bind

theorem bind_ordered (harg : arg.Ordered) (hbody : body.Ordered) :
    (bind x arg body span n).1.Ordered := by
  have absent : (lambda [⟨n, "_"⟩] [.unit] (nothing span) span).Ordered := rfl
  have present : (lambda [x] [.any] body span).Ordered :=
    Expr.ordered_iff.mpr ⟨rfl, List.forall_mem_singleton.mpr hbody⟩
  have names : [Optional.absent, Optional.present].Pairwise fun a b => compare a b = .lt := by decide
  refine Expr.ordered_iff.mpr ⟨decide_eq_true names, List.forall_mem_cons.mpr ⟨harg, ?_⟩⟩
  exact List.forall_mem_cons.mpr ⟨absent, List.forall_mem_singleton.mpr present⟩

theorem eq_option_of_enumerates {names : List String} {payloads : List Ty} {u : Ty}
    (h : Enumerates decls Optional.enum u names payloads) :
    ∃ t, u = .option t ∧ payloads = [.unit, t] := by
  cases h with
  | optional t => exact ⟨t, rfl, rfl⟩
  | declared other => exact absurd rfl other

theorem hasTy_bind_iff : HasTy Ty.Admits decls env Γ (bind x arg body span n).1 (.option r) ↔
    ∃ t, HasTy Ty.Admits decls env Γ arg (.option t) ∧
      HasTy Ty.Admits decls env (Γ.insert x t) body (.option r) := by
  constructor
  · intro h
    cases h with
    | switch enumerates typed typedCases _ =>
      obtain ⟨t, rfl, rfl⟩ := eq_option_of_enumerates enumerates
      have present : HasTy Ty.Admits decls env Γ (lambda [x] [.any] body span)
          (.arrow [t] (.option r)) :=
        typedCases (_, t) (List.mem_cons_of_mem _ List.mem_cons_self)
      cases present with
      | lam _ _ typedBody _ => exact ⟨t, typed, typedBody⟩
  · rintro ⟨t, harg, hbody⟩
    refine .switch (.optional t) harg (List.forall_mem_cons.mpr ⟨?_, List.forall_mem_singleton.mpr ?_⟩)
      (Ty.any_admits _)
    · have unit (Δ : Dict Var Ty) : HasTy Ty.Admits decls env Δ (.lit .unit (.erased span)) .unit :=
        .lit (Ty.any_admits _)
      exact .lam rfl (.cons (.refl _) .nil)
        (.inject (.optional r) (by simp) (unit _) (Ty.any_admits _)) (Ty.any_admits _)
    · exact .lam rfl (.cons (Ty.any_admits t) .nil) hbody (Ty.any_admits _)

theorem call_eq : (call f [a] span n).1 = (bind ⟨n, "x"⟩ f (bind ⟨n + 1, "x"⟩ a
    (apply (ref ⟨n, "x"⟩ span) [ref ⟨n + 1, "x"⟩ span] span) span (n + 2)).1 span (n + 3)).1 := rfl

theorem call_ordered (hf : f.Ordered) (ha : a.Ordered) : (call f [a] span n).1.Ordered := by
  rw [call_eq]
  exact bind_ordered hf (bind_ordered ha rfl)

/-- A call is of a type if the function, as a value that may be absent, takes the argument to it. -/
theorem hasTy_call_iff (closed : a.free = []) :
    HasTy Ty.Admits decls env ∅ (call f [a] span n).1 (.option r) ↔
      ∃ t, HasTy Ty.Admits decls env ∅ f (.option (.arrow [t] (.option r))) ∧
        HasTy Ty.Admits decls env ∅ a (.option t) := by
  have ne : (⟨n, "x"⟩ : Var) ≠ ⟨n + 1, "x"⟩ := by simp
  have argument (g t : Ty) : HasTy Ty.Admits decls env (Dict.insert ∅ ⟨n, "x"⟩ g) a (.option t) ↔
      HasTy Ty.Admits decls env ∅ a (.option t) :=
    ⟨fun h => h.congr_free (by simp [closed]), fun h => h.congr_free (by simp [closed])⟩
  have applied (g t : Ty) : HasTy Ty.Admits decls env
      ((Dict.insert ∅ ⟨n, "x"⟩ g).insert ⟨n + 1, "x"⟩ t)
      (apply (ref ⟨n, "x"⟩ span) [ref ⟨n + 1, "x"⟩ span] span) (.option r) ↔
      g = .arrow [t] (.option r) := by
    constructor
    · intro h
      cases h with
      | app typedf length typedArgs _ =>
        obtain ⟨u, rfl⟩ := List.length_eq_one_iff.mp length.symm
        have typedArg := typedArgs (_, u) List.mem_cons_self
        cases typedf with
        | var hf _ =>
          cases typedArg with
          | var ha _ =>
            obtain rfl : u = t := by simpa [VarTy] using ha
            have known : .arrow [u] (.option r) = g := by simpa [VarTy, ne] using hf
            exact known.symm
    · rintro rfl
      have hf : VarTy env ((Dict.insert ∅ ⟨n, "x"⟩ (.arrow [t] (.option r))).insert ⟨n + 1, "x"⟩ t)
          ⟨n, "x"⟩ (.arrow [t] (.option r)) := by simp [VarTy, ne]
      have ha : VarTy env ((Dict.insert ∅ ⟨n, "x"⟩ (.arrow [t] (.option r))).insert ⟨n + 1, "x"⟩ t)
          ⟨n + 1, "x"⟩ t := by simp [VarTy]
      exact .app (.var hf (Ty.any_admits _)) rfl
        (List.forall_mem_singleton.mpr (.var ha (Ty.any_admits _))) (Ty.any_admits _)
  rw [call_eq, hasTy_bind_iff]
  constructor
  · rintro ⟨g, hf, inner⟩
    obtain ⟨t, ha, hg⟩ := hasTy_bind_iff.mp inner
    obtain rfl := (applied g t).mp hg
    exact ⟨t, hf, (argument _ t).mp ha⟩
  · rintro ⟨t, hf, ha⟩
    exact ⟨_, hf, hasTy_bind_iff.mpr ⟨t, (argument _ t).mpr ha, (applied _ t).mpr rfl⟩⟩

end Bind

section Call

variable {ctx : Ctx} {m : Mark}

/-- The generic rule lifts the function and then the argument, and calls the one on the other. -/
theorem app_lifts (notOp : ∀ o k, f ≠ .op o k) (notForced : forces f [a] = false) :
    Lifts n (Expr.lift ∅ (.app f [a] m)) fun out _ => ∃ g k b l, f.lift ∅ n = (.ok g, k) ∧
      a.lift ∅ k = (.ok b, l) ∧ out = (call g [b] m.span l).1 := by
  refine call_lifts notOp ?_ (fun forced => ?_) fun _ => ?_
  · rintro v _ b _ _ _ _ bound
    simp at bound
  · rw [notForced] at forced
    cases forced
  · refine .bind (lift_draws f).run fun g k _ hg => ?_
    refine .bind (.bind (lift_draws a).run fun b l _ hb => .pure
      (Q := fun bs l => ∃ b, bs = [b] ∧ a.lift ∅ k = (.ok b, l)) ⟨b, rfl, hb.2⟩) fun bs l _ hbs => ?_
    obtain ⟨b, rfl, hb⟩ := hbs
    exact .supply ⟨Nat.le_add_right l 4, g, k, b, l, hg.2, hb, rfl⟩

/-- A closed expression that is lifted has its lifted type, and stays closed. -/
theorem closed_lifts {t : Ty} (concrete : decls.Concrete) (typed : HasTy Eq decls .empty ∅ e t)
    (forced : e.thunksForced = true) (nodup : e.binders.Nodup) :
    Lifts n (e.lift ∅) fun out _ =>
      HasTy Ty.Admits decls.lift .empty ∅ out (.option t.image) ∧ out.free = [] := by
  intro out m lifted
  have ready : Ready .empty ∅ ∅ n e.binders :=
    ⟨fun _ _ found => by simp at found, fun _ _ _ found => by simp at found, fun _ _ => rfl, nodup⟩
  have none : Ctx.targets ∅ e.vars ⊆ [] := by
    intro x hx
    obtain ⟨v, _, b, bound, _⟩ := Ctx.mem_targets.mp hx
    simp at bound
  obtain ⟨le, typedOut⟩ := lift_preserves concrete e typed forced ready (Nat.le_refl n) out m lifted
  obtain ⟨_, made⟩ := lift_hygienic e none out m lifted
  refine ⟨le, typedOut ∅ ?_, List.subset_nil.mp made.free_subset⟩
  rintro _ _ ⟨v, b, _, found, _⟩
  simp at found

/-- The type of an expression that has one only. -/
theorem eq_of_synthesize {s : Expr Mark} {t : Ty} (found : e.synthesize decls env = .ok s)
    (concrete : s.mark.ty.isConcrete = true) (typed : HasTy Ty.Admits decls env ∅ e t) :
    t = s.mark.ty := by
  obtain ⟨filled, admits, typed⟩ := typed.exists_filled
  have mark : filled.mark.ty = t := typed.fits_mark
  obtain ⟨s', found', general⟩ := synthesize_of_types ⟨admits, mark ▸ typed⟩
  cases found.symm.trans found'
  cases general with
  | node _ _ root _ => exact mark ▸ (root.eq_of_isConcrete concrete).symm

theorem unitCall_checks {k : Nat} {i : Mark} {out : Expr Mark} (concrete : decls.Concrete)
    (notOp : ∀ o k, f ≠ .op o k) (typed : HasTy Eq decls .empty ∅ f (.arrow [.unit] r))
    (forced : f.thunksForced = true) (nodup : f.binders.Nodup)
    (lifted : (Expr.app f [.lit .unit i] m).lift ∅ n = (.ok out, k)) :
    ∃ t, out.check decls.lift .empty (.option r.lift) = .ok t := by
  have thunk : f.mark.ty.isThunk = true := by
    rw [typed.fits_mark]
    rfl
  have lifts : Lifts n ((Expr.app f [.lit .unit i] m).lift ∅) fun out _ =>
      HasTy Ty.Admits decls.lift .empty ∅ out (.option r.image) := by
    refine call_lifts notOp ?_ (fun _ => ?_) fun notForced => ?_
    · rintro v _ b _ _ _ _ bound
      simp at bound
    · exact (closed_lifts concrete typed forced nodup).imp fun _ _ _ h => h.1
    · rw [forces_of_isThunk thunk] at notForced
      cases notForced
  exact check_of_hasTy (lifts out k lifted).2 (Ty.lift_admits_image r)

/-- The lifted forms are a function and an argument that it takes, both of which may be absent, and
its result is of an instance of the type. -/
def TakesLifted (decls : Decls) (n : Nat) (f a : Expr Mark) (r : Ty) : Prop :=
  ∃ g i b j t u, f.lift ∅ n = (.ok g, i) ∧ a.lift ∅ i = (.ok b, j) ∧ r.Admits u ∧
    HasTy Ty.Admits decls .empty ∅ g (.option (.arrow [t] (.option u))) ∧
    HasTy Ty.Admits decls .empty ∅ b (.option t)

theorem otherCall_checks_iff {k : Nat} {out : Expr Mark} (concrete : decls.Concrete)
    (notOp : ∀ o k, f ≠ .op o k) (typedf : HasTy Eq decls .empty ∅ f (.arrow [.unit] r))
    (typeda : HasTy Eq decls .empty ∅ a .unit)
    (forced : f.thunksForced = true ∧ a.thunksForced = true)
    (nodup : f.binders.Nodup ∧ a.binders.Nodup) (other : ∀ i, a ≠ .lit .unit i)
    (lifted : (Expr.app f [a] m).lift ∅ n = (.ok out, k)) :
    (∃ t, out.check decls.lift .empty (.option r.lift) = .ok t) ↔
      TakesLifted decls.lift n f a r.lift := by
  have notForced : forces f [a] = false := by
    cases forces : forces f [a] with
    | false => rfl
    | true =>
      obtain ⟨i, eq⟩ := eq_of_forces forces
      exact absurd (List.cons.inj eq).1 (other i)
  obtain ⟨_, g, i, b, j, hg, hb, rfl⟩ := app_lifts notOp notForced out k lifted
  obtain ⟨_, typedg, _⟩ := closed_lifts concrete typedf forced.1 nodup.1 g i hg
  obtain ⟨_, typedb, closed⟩ := closed_lifts concrete typeda forced.2 nodup.2 b j hb
  rw [check_ok_iff (call_ordered typedg.ordered typedb.ordered)]
  constructor
  · rintro ⟨w, admits, typed⟩
    cases w with
    | option u =>
      obtain ⟨t, hf, ha⟩ := (hasTy_call_iff closed).mp typed
      exact ⟨g, i, b, j, t, u, hg, hb, admits, hf, ha⟩
    | _ => exact absurd admits nofun
  · rintro ⟨g', i', b', j', t, u, hg', hb', admits, hf, ha⟩
    cases hg.symm.trans hg'
    cases hb.symm.trans hb'
    exact ⟨.option u, admits, (hasTy_call_iff closed).mpr ⟨t, hf, ha⟩⟩

/-- A function of one type only cannot be the delayed value and take an argument as well. -/
theorem not_takesLifted {g s : Expr Mark} {i : Nat} (concrete : decls.Concrete)
    (typed : HasTy Eq decls .empty ∅ f (.arrow [.unit] r)) (forced : f.thunksForced = true)
    (nodup : f.binders.Nodup) (known : r.isConcrete = true) (hg : f.lift ∅ n = (.ok g, i))
    (found : g.synthesize decls.lift .empty = .ok s) (one : s.mark.ty.isConcrete = true) :
    ¬ TakesLifted decls.lift n f a r.lift := by
  rintro ⟨g', i', b, j, t, u, hg', _, admits, hf, _⟩
  cases hg.symm.trans hg'
  obtain ⟨_, typedg, _⟩ := closed_lifts concrete typed forced nodup g i hg
  have value : .option r.lift = s.mark.ty := by
    rw [← eq_of_synthesize found one typedg, Ty.image_thunk, Ty.image_of_isConcrete known]
  have function : .option (.arrow [t] (.option u)) = s.mark.ty := eq_of_synthesize found one hf
  have lifted : r.lift.isConcrete = true := by
    rw [← value] at one
    exact one
  obtain rfl := admits.eq_of_isConcrete lifted
  have infinite : r.lift = .arrow [t] (.option r.lift) := Ty.option.inj (value.trans function.symm)
  have size := congrArg sizeOf infinite
  simp only [Ty.arrow.sizeOf_spec, Ty.option.sizeOf_spec] at size
  omega

end Call

/-- A call of a delayed value passes the checker at the lifted type of its result if its argument is
the unit literal. With any other argument it does only if the lifted function is, beside the delayed
value that it stands for, a function that takes the lifted argument to the result; so it never does if
the lifted function is of one type only. -/
theorem thunkCall_checks_iff (decls : Decls) (e f a : Expr Mark) (m : Mark) (r : Ty)
    (ordered : e.Ordered) (checked : e.synthesize decls .empty = .ok (.app f [a] m))
    (concrete : decls.Concrete) (notOp : ∀ o k, f ≠ .op o k) (thunk : f.mark.ty = .arrow [.unit] r)
    (forced : f.thunksForced = true ∧ a.thunksForced = true)
    (nodup : (Expr.app f [a] m).binders.Nodup) (n k : Nat) (out : Expr Mark)
    (lifted : (Expr.app f [a] m).lift ∅ n = (.ok out, k)) :
    ((∃ t, out.check decls.lift .empty (.option r.lift) = .ok t) ↔
      (∃ i, a = .lit .unit i) ∨ TakesLifted decls.lift n f a r.lift) ∧
    ((∀ i, a ≠ .lit .unit i) → r.isConcrete = true → ∀ g i s, f.lift ∅ n = (.ok g, i) →
      g.synthesize decls.lift .empty = .ok s → s.mark.ty.isConcrete = true →
      ¬ ∃ t, out.check decls.lift .empty (.option r.lift) = .ok t) := by
  obtain ⟨typedf, typeda⟩ : HasTy Eq decls .empty ∅ f (.arrow [.unit] r) ∧
      HasTy Eq decls .empty ∅ a .unit := by
    cases (synthesize_hasTy ordered checked).1 with
    | app typedf _ typedArgs _ =>
      cases thunk.symm.trans typedf.fits_mark
      exact ⟨typedf, typedArgs _ List.mem_cons_self⟩
  have binders : (Expr.app f [a] m).binders = f.binders ++ a.binders := by
    simp [Expr.binders_eq (.app f [a] m), Expr.params, Expr.children]
  rw [binders] at nodup
  obtain ⟨nodupf, nodupa, _⟩ := List.nodup_append.mp nodup
  by_cases literal : ∃ i, a = .lit .unit i
  · obtain ⟨i, rfl⟩ := literal
    have checks := unitCall_checks concrete notOp typedf forced.1 nodupf lifted
    exact ⟨iff_of_true checks (.inl ⟨i, rfl⟩), fun other => absurd rfl (other i)⟩
  · have checks := otherCall_checks_iff concrete notOp typedf typeda forced ⟨nodupf, nodupa⟩
      (fun i eq => literal ⟨i, eq⟩) lifted
    rw [or_iff_right literal, checks]
    exact ⟨.rfl, fun _ known g i s hg found one =>
      not_takesLifted concrete typedf forced.1 nodupf known hg found one⟩

section Example

/-- `(fun (u : unit) => 5) arg` -/
def askFive (arg : Expr Mark) : Expr Mark :=
  .app (.lam [⟨0, "u"⟩] [.unit] (.lit (.int 5) .blank) .blank) [arg] .blank

/-- `assert true`, which is of the type `unit`. -/
def holds : Expr Mark := .assert (.lit (.bool true) .blank) .blank

/-- What is called, with its argument. -/
private def callOf : Except Typing.Error (Expr Mark) → Option (Expr Mark × Expr Mark × Mark)
  | .ok (.app f [a] m) => some (f, a, m)
  | _ => none

private theorem eq_of_callOf {r : Except Typing.Error (Expr Mark)} {m : Mark}
    (h : callOf r = some (f, a, m)) : r = .ok (.app f [a] m) := by
  unfold callOf at h
  split at h
  · cases h
    rfl
  · cases h

private def isUnit : Expr Mark → Bool
  | .lit .unit _ => true
  | _ => false

private theorem exists_of_isUnit (h : isUnit a = true) : ∃ i, a = .lit .unit i := by
  unfold isUnit at h
  split at h
  · exact ⟨_, rfl⟩
  · cases h

/-- With an argument that is not the unit literal the lifted call does not pass the checker. -/
theorem askFive_holds_refused : (askFive holds).Ordered ∧ ∃ f a m out k,
    (askFive holds).synthesize ⟨∅, ∅⟩ .empty = .ok (.app f [a] m) ∧
    f.mark.ty = .arrow [.unit] .int ∧ a.mark.ty = .unit ∧ f.thunksForced = true ∧
    a.thunksForced = true ∧ (Expr.app f [a] m).lift ∅ 1 = (.ok out, k) ∧
    ¬ ∃ t, out.check (Decls.lift ⟨∅, ∅⟩) .empty (.option .int) = .ok t := by
  have found : (callOf ((askFive holds).synthesize ⟨∅, ∅⟩ .empty)).any (fun c =>
      decide (c.1.mark.ty = .arrow [.unit] .int) && decide (c.2.1.mark.ty = .unit) &&
        c.1.thunksForced && c.2.1.thunksForced &&
        ((Expr.app c.1 [c.2.1] c.2.2).lift ∅ 1).1.toOption.any fun out =>
          (out.check (Decls.lift ⟨∅, ∅⟩) .empty (.option .int)).toOption.isNone) = true := by
    decide +kernel
  obtain ⟨⟨f, a, m⟩, called, found⟩ := (Option.any_eq_true _ _).mp found
  simp only [Bool.and_eq_true, decide_eq_true_eq] at found
  obtain ⟨⟨⟨⟨thunk, unit⟩, forcedf⟩, forceda⟩, lifted⟩ := found
  obtain ⟨out, k, lifted, refused⟩ := exists_run lifted
  refine ⟨by decide, f, a, m, out, k, eq_of_callOf called, thunk, unit, forcedf, forceda, lifted,
    ?_⟩
  rintro ⟨t, accepted⟩
  simp [accepted, Except.toOption] at refused

/-- The lifted function of this call does not take the argument, so neither side holds; and the same
call on the unit literal passes. -/
theorem askFive_checks :
    (∃ f a m out k, (askFive holds).synthesize ⟨∅, ∅⟩ .empty = .ok (.app f [a] m) ∧
      (Expr.app f [a] m).lift ∅ 1 = (.ok out, k) ∧ ¬ TakesLifted (Decls.lift ⟨∅, ∅⟩) 1 f a .int) ∧
    (∃ f a m out k, (askFive (.lit .unit .blank)).synthesize ⟨∅, ∅⟩ .empty = .ok (.app f [a] m) ∧
      (Expr.app f [a] m).lift ∅ 1 = (.ok out, k) ∧
      ∃ t, out.check (Decls.lift ⟨∅, ∅⟩) .empty (.option .int) = .ok t) := by
  have concrete : Decls.Concrete ⟨∅, ∅⟩ :=
    ⟨Dict.forall_get?_iff.mpr (by decide), Dict.forall_get?_iff.mpr (by decide)⟩
  have notOp (f : Expr Mark) (params : f.params = [⟨0, "u"⟩]) (o : Op) (k : Mark) : f ≠ .op o k := by
    rintro rfl
    cases params
  constructor
  · have found : (callOf ((askFive holds).synthesize ⟨∅, ∅⟩ .empty)).any (fun c =>
        decide (c.1.params = [⟨0, "u"⟩]) && decide (c.1.mark.ty = .arrow [.unit] .int) &&
          c.1.thunksForced && c.2.1.thunksForced &&
          decide (Expr.app c.1 [c.2.1] c.2.2).binders.Nodup && decide (c.2.1.children ≠ []) &&
          ((Expr.app c.1 [c.2.1] c.2.2).lift ∅ 1).1.toOption.any (fun _ => true) &&
          (c.1.lift ∅ 1).1.toOption.any fun g =>
            (g.synthesize (Decls.lift ⟨∅, ∅⟩) .empty).toOption.any (·.mark.ty.isConcrete)) =
        true := by
      decide +kernel
    obtain ⟨⟨f, a, m⟩, called, found⟩ := (Option.any_eq_true _ _).mp found
    simp only [Bool.and_eq_true, decide_eq_true_eq] at found
    obtain ⟨⟨⟨⟨⟨⟨⟨params, thunk⟩, forcedf⟩, forceda⟩, nodup⟩, inner⟩, lifted⟩, function⟩ := found
    obtain ⟨out, k, lifted, _⟩ := exists_run lifted
    obtain ⟨g, j, hg, typed⟩ := exists_run function
    obtain ⟨s, hs, known⟩ := exists_ok typed
    have checked := eq_of_callOf called
    obtain ⟨checks, never⟩ := thunkCall_checks_iff ⟨∅, ∅⟩ (askFive holds) f a m .int (by decide)
      checked concrete (notOp f params) thunk ⟨forcedf, forceda⟩ nodup 1 k out lifted
    have other : ∀ i, a ≠ .lit .unit i := by
      rintro i rfl
      exact inner rfl
    refine ⟨f, a, m, out, k, checked, lifted, fun takes => ?_⟩
    exact never other rfl g j s hg hs known (checks.mpr (.inr takes))
  · have found : (callOf ((askFive (.lit .unit .blank)).synthesize ⟨∅, ∅⟩ .empty)).any (fun c =>
        decide (c.1.params = [⟨0, "u"⟩]) && decide (c.1.mark.ty = .arrow [.unit] .int) &&
          c.1.thunksForced && c.2.1.thunksForced &&
          decide (Expr.app c.1 [c.2.1] c.2.2).binders.Nodup && isUnit c.2.1 &&
          ((Expr.app c.1 [c.2.1] c.2.2).lift ∅ 1).1.toOption.any fun _ => true) = true := by
      decide +kernel
    obtain ⟨⟨f, a, m⟩, called, found⟩ := (Option.any_eq_true _ _).mp found
    simp only [Bool.and_eq_true, decide_eq_true_eq] at found
    obtain ⟨⟨⟨⟨⟨⟨params, thunk⟩, forcedf⟩, forceda⟩, nodup⟩, literal⟩, lifted⟩ := found
    obtain ⟨out, k, lifted, _⟩ := exists_run lifted
    have checked := eq_of_callOf called
    obtain ⟨checks, _⟩ := thunkCall_checks_iff ⟨∅, ∅⟩ (askFive (.lit .unit .blank)) f a m .int
      (by decide) checked concrete (notOp f params) thunk ⟨forcedf, forceda⟩ nodup 1 k out lifted
    exact ⟨f, a, m, out, k, checked, lifted, checks.mpr (.inl (exists_of_isUnit literal))⟩

end Example

end Ordinance.Lift
