import Ordinance.Lift.Program
import Ordinance.Proofs.Lift.Typing.Recheck

namespace Ordinance.Lift

open Typing

variable {decls : Decls} {env env' : Env} {Γ Δ : Dict Var Ty} {A : Assumptions} {ctx : Ctx}
  {n m : Nat} {bs cs : List Var} {v : Var} {t : Ty}

section Contexts

theorem Ctx.known_congr (h : env.vars = env'.vars) : ctx.known env Γ = ctx.known env' Γ := by
  funext x u
  simp only [Ctx.known, varTy_of_vars h]

theorem Ready.congr (ready : Ready env Γ ctx n bs) (h : env.vars = env'.vars) :
    Ready env' Γ ctx n bs :=
  { ready with
    scopes := fun v b t found scope hv => ready.scopes v b t found scope ((varTy_of_vars h).mpr hv) }

/-- The context can be used for the binders `bs` with numbers from `n` upwards, and the assumptions
say what it does. -/
structure Supports (env : Env) (Γ : Dict Var Ty) (ctx : Ctx) (n : Nat) (bs : List Var)
    (A : Assumptions) : Prop where
  ready : Ready env Γ ctx n bs
  below : A.Below n
  known : ∀ y u, ctx.known env Γ y u → A y u

namespace Supports

theorem mono (h : Supports env Γ ctx n bs A) (le : n ≤ m) : Supports env Γ ctx m bs A :=
  ⟨h.ready.mono le, h.below.mono le, h.known⟩

theorem sub (h : Supports env Γ ctx n bs A) (sub : cs.Sublist bs) : Supports env Γ ctx n cs A :=
  { h with ready := h.ready.sub sub }

theorem bind (mode : Mode) (h : Supports env Γ ctx n (v :: bs) A) (binds : Binds env Γ v t env' Δ)
    (scope : mode = .scope → ∃ input output, t = .arrow [.struct input] (.struct output)) :
    Draws n (ctx.bind v mode) fun r m =>
      A.Fresh r.2 ∧ Supports env' Δ r.1 m bs (A.add [r.2] [mode.image t]) := by
  refine (bind_ready h.ready binds scope).imp fun r m le hr => ?_
  obtain ⟨low, high, ready, known⟩ := hr
  refine ⟨h.below.fresh low, ready, ?_, fun y u hu => ?_⟩
  · rintro y u (hu | hu)
    · exact Nat.lt_of_lt_of_le (h.below y u hu) le
    · obtain ⟨rfl, _⟩ : y = r.2 ∧ u = mode.image t := by simpa using hu
      exact high
  · exact (known y u hu).imp_left (h.known y u)

end Supports

end Contexts

/-- What is so of the result for each of several readings is so for all of them. -/
theorem Lifts.all {ι α : Type} [Nonempty ι] {x : LiftM α} {Q : ι → α → Nat → Prop}
    (h : ∀ i, Lifts n x (Q i)) : Lifts n x fun a m => ∀ i, Q i a m := by
  intro a m run
  obtain ⟨i⟩ := ‹Nonempty ι›
  exact ⟨(h i a m run).1, fun j => (h j a m run).2⟩

section Bodies

variable {l : ScopeLet Mark} {ls : List (ScopeLet Mark)} {e : Expr Mark} {b : ScopeBody Mark}

theorem letExpr_typed (env' : Env) (concrete : decls.Concrete) (typed : HasTy Eq decls env Γ l.expr l.ty)
    (forced : l.expr.thunksForced = true) (ready : Ready env Γ ctx n l.expr.binders) :
    Lifts n (letExpr ctx l) fun r _ => r.2 = l.mode ∧
      Typed decls.lift env' (ctx.known env Γ) r.1 (l.mode.image l.ty) := by
  have ih (d : Expr Mark) : Preserves decls env env' d := lift_preserves concrete d
  have lifted := ih l.expr typed forced ready (Nat.le_refl n)
  obtain ⟨var, role, ty, e, span⟩ := l
  unfold letExpr
  split
  next d k hrole hexpr =>
    subst hrole hexpr
    have readyd : Ready env Γ ctx n d.binders := ready.child List.mem_cons_self
    have forcedd := (Expr.thunksForced_iff.mp forced).2 d List.mem_cons_self
    cases typed with
    | force typed _ =>
      refine .bind (ih d typed forcedd readyd (Nat.le_refl n)) fun out i le hout => ?_
      refine .bind (.supply (unwrap_typed (readyd.known_below.mono le) hout)) fun out _ _ hout => ?_
      exact .pure ⟨rfl, hout⟩
  next v tys body k hrole hexpr =>
    subst hrole hexpr
    obtain rfl : tys = [] := by
      cases typed with
      | lam count _ _ _ => simpa using count
    exact .bind lifted fun out _ _ hout => .pure ⟨rfl, hout⟩
  next => exact .fail
  next notForced _ =>
    have option : ScopeLet.mode ⟨var, role, ty, e, span⟩ = .option := by
      unfold ScopeLet.mode
      split
      next d k hrole hexpr => exact (notForced d k hrole hexpr).elim
      next => rfl
    rw [option]
    exact .bind lifted fun out _ _ hout => .pure ⟨rfl, hout⟩

theorem let_lift (concrete : decls.Concrete) (vars : env'.vars = env.vars)
    (typed : HasTy Eq decls env' Γ l.expr l.ty) (forced : l.expr.thunksForced = true)
    (supports : Supports env Γ ctx n (l.var :: (l.expr.binders ++ bs)) A) :
    Lifts n (l.lift ctx) fun r m => r.2.ty = .any ∧ A.Fresh r.2.var ∧
      (∀ env, Typed decls.lift env A r.2.expr (l.mode.image l.ty)) ∧
      Supports env (Γ.insert l.var l.ty) r.1 m bs (A.add [r.2.var] [l.mode.image l.ty]) := by
  have inner : (l.expr.binders).Sublist (l.var :: (l.expr.binders ++ bs)) :=
    (List.sublist_append_left _ bs).trans (List.sublist_cons_self l.var _)
  have ready := (supports.ready.sub inner).congr vars.symm
  refine .bind (.all fun env₁ => letExpr_typed env₁ concrete typed forced ready) fun r i le hr => ?_
  have later := (supports.mono le).sub ((List.sublist_append_right l.expr.binders bs).cons_cons l.var)
  obtain ⟨e, mode⟩ := r
  obtain rfl : mode = l.mode := (hr env).1
  have notScope : l.mode ≠ .scope := by
    unfold ScopeLet.mode
    split <;> nofun
  have bound := later.bind l.mode (binds_insert (t := l.ty)) fun scope => absurd scope notScope
  refine .bind (.supply bound) fun r i le hbound => .pure ⟨rfl, hbound.1, fun env₁ => ?_, hbound.2⟩
  refine (hr env₁).2.mono fun y u known => supports.known y u ?_
  rwa [Ctx.known_congr vars] at known

/-- The local definitions of a scope: what is known of the variables grows with each. -/
theorem lets_lift (concrete : decls.Concrete) (typed : LetsTyped decls env.vars Γ ls Δ)
    (forced : ∀ l ∈ ls, l.expr.thunksForced = true)
    (supports : Supports env Γ ctx n (ls.flatMap ScopeLet.binders ++ bs) A) :
    Lifts n (lets ctx ls) fun r m => ∃ B, Supports env Δ r.1 m bs B ∧
      LetsTake decls.lift A r.2 (ls.map fun l => l.mode.image l.ty) B := by
  induction ls generalizing Γ ctx n A with
  | nil =>
    cases typed
    exact .pure ⟨A, supports, .nil A⟩
  | cons l ls ih =>
    obtain ⟨forced, forceds⟩ := List.forall_mem_cons.mp forced
    rw [List.flatMap_cons, ScopeLet.binders, List.cons_append, List.cons_append,
      List.append_assoc] at supports
    cases typed with
    | cons vars typed typeds =>
      refine .bind (let_lift concrete vars typed forced supports) fun r i le hr => ?_
      obtain ⟨any, fresh, first, supports⟩ := hr
      refine .bind (ih typeds forceds supports) fun r' i' le' hr' => .pure ?_
      obtain ⟨B, supports, takes⟩ := hr'
      refine ⟨B, supports, .cons ?_ fresh first takes⟩
      rw [any]
      exact Ty.any_admits _

theorem result_typed (env' : Env) {struct : String} (concrete : decls.Concrete)
    (typed : HasTy Eq decls env Γ e (.struct struct)) (forced : e.thunksForced = true)
    (ready : Ready env Γ ctx n e.binders) :
    Lifts n (result ctx e) fun out _ =>
      Typed decls.lift env' (ctx.known env Γ) out (.struct struct) := by
  cases e with
  | record name fields m =>
    have parts (d : Expr Mark) (hd : d ∈ fields.map Prod.snd) (u : Ty) (hu : HasTy Eq decls env Γ d u) :
        LiftsTo decls.lift env' (ctx.known env Γ) ctx n d u.image :=
      lift_preserves concrete d hu ((Expr.thunksForced_iff.mp forced).2 d hd) (ready.child hd)
    refine .bind (recordFields_typed concrete m.span typed parts (Nat.le_refl n)) fun outs _ _ hout => ?_
    exact .pure hout
  | _ => exact .fail

theorem body_lift (concrete : decls.Concrete) (typed : BodyTyped decls env.vars b)
    (forced : ∀ l ∈ b.lets, l.expr.thunksForced = true) (result : b.result.thunksForced = true)
    (supports : Supports env ∅ ctx n b.binders A) :
    Lifts n (b.lift ctx) fun out _ => out.input = b.input ∧ out.output = b.output ∧
      BodyTakes decls.lift A out (b.lets.map fun l => l.mode.image l.ty) := by
  obtain ⟨⟨input, hinput⟩, ⟨output, houtput⟩, Γ, env', lets, vars, hresult⟩ := typed
  refine .bind (.supply (supports.bind .payload (binds_insert (t := .struct b.input)) nofun))
    fun r i le hr => ?_
  obtain ⟨fresh, supports⟩ := hr
  refine .bind (lets_lift concrete lets forced supports) fun r' i' le' hr' => ?_
  obtain ⟨B, supports, takes⟩ := hr'
  have ready := supports.ready.congr vars.symm
  refine .bind (.all fun env₁ => result_typed env₁ concrete hresult result ready)
    fun out i le hout => .pure ?_
  refine ⟨rfl, rfl, ⟨_, Decls.structs_lift hinput⟩, ⟨_, Decls.structs_lift houtput⟩, fresh, B,
    takes, fun env₁ => ?_⟩
  refine (hout env₁).mono fun y u known => supports.known y u ?_
  rwa [Ctx.known_congr vars] at known

end Bodies

section Items

/-- A variable of a known type is bound for later items. -/
theorem binds_bindVar (concrete : t.isConcrete = true) : Binds env ∅ v t (env.bindVar v t) ∅ where
  here u h := by
    obtain ⟨t', found, admits⟩ := h
    obtain rfl : t = t' := by simpa [Env.var?, Env.bindVar] using found
    exact (admits.eq_of_isConcrete concrete).symm
  others w u ne h := by
    obtain ⟨t', found, admits⟩ := h
    exact ⟨t', by simpa [Env.var?, Env.bindVar, ne] using found, admits⟩

theorem definition_lift {d : Definition Mark} (concrete : decls.Concrete)
    (vars : env'.vars = env.vars) (typed : HasTy Eq decls env' ∅ d.expr d.ty)
    (type : d.ty.isConcrete = true) (forced : d.expr.thunksForced = true)
    (supports : Supports env ∅ ctx n (d.var :: (d.expr.binders ++ bs)) A) :
    Lifts n ((Item.definition d).lift ctx) fun r m => ∃ e, r.2 = .definition e ∧ e.ty = .any ∧
      A.Fresh e.var ∧ (∀ env, Typed decls.lift env A e.expr (.option d.ty.lift)) ∧
      Supports (env.bindVar d.var d.ty) ∅ r.1 m bs (A.add [e.var] [.option d.ty.lift]) := by
  have inner : (d.expr.binders).Sublist (d.var :: (d.expr.binders ++ bs)) :=
    (List.sublist_append_left _ bs).trans (List.sublist_cons_self d.var _)
  have ready := (supports.ready.sub inner).congr vars.symm
  rw [← Ty.image_of_isConcrete type]
  have preserved (env₁ : Env) : Preserves decls env' env₁ d.expr := lift_preserves concrete d.expr
  refine .bind (.all fun env₁ => preserved env₁ typed forced ready (Nat.le_refl n))
    fun e i le he => ?_
  have later := (supports.mono le).sub ((List.sublist_append_right d.expr.binders bs).cons_cons d.var)
  refine .bind (.supply (later.bind .option (binds_bindVar type) nofun)) fun r i le hr => .pure ?_
  refine ⟨_, rfl, rfl, hr.1, fun env₁ => (he env₁).mono fun y u known => supports.known y u ?_, hr.2⟩
  rwa [Ctx.known_congr vars] at known

theorem scope_lift {s : Scope Mark} (concrete : decls.Concrete)
    (typed : BodyTyped decls env.vars s.body) (types : ∀ l ∈ s.body.lets, l.ty.isConcrete = true)
    (forced : ∀ l ∈ s.body.lets, l.expr.thunksForced = true)
    (result : s.body.result.thunksForced = true)
    (supports : Supports env ∅ ctx n (s.var :: (s.body.binders ++ bs)) A) :
    Lifts n ((Item.scope s).lift ctx) fun r m => ∃ s', r.2 = .scope s' ∧ A.Fresh s'.var ∧
      BodyTakes decls.lift A s'.body (s.body.lets.map fun l => l.mode.lift l.ty) ∧
      Supports (env.bindVar s.var s.ty) ∅ r.1 m bs (A.add [s'.var] [s'.ty]) := by
  have inner : (s.body.binders).Sublist (s.var :: (s.body.binders ++ bs)) :=
    (List.sublist_append_left _ bs).trans (List.sublist_cons_self s.var _)
  have images : s.body.lets.map (fun l => l.mode.image l.ty) =
      s.body.lets.map fun l => l.mode.lift l.ty :=
    List.map_congr_left fun l hl => Mode.image_of_isConcrete (types l hl) l.mode
  refine .bind (body_lift concrete typed forced result (supports.sub inner)) fun b i le hb => ?_
  obtain ⟨input, output, takes⟩ := hb
  have later := (supports.mono le).sub ((List.sublist_append_right s.body.binders bs).cons_cons s.var)
  have bound := later.bind .scope (binds_bindVar (t := s.ty) rfl) fun _ => ⟨_, _, rfl⟩
  refine .bind (.supply bound) fun r i le hr => .pure ?_
  have ty : Scope.ty { s with var := r.2, body := b } = s.ty := by simp [Scope.ty, input, output]
  refine ⟨_, rfl, hr.1, images ▸ takes, ?_⟩
  rw [ty]
  exact hr.2

/-- Items that are well typed are lifted to items that have the lifted types. -/
theorem items_lift {is : List (Item Mark)} (concrete : decls.Concrete)
    (typed : ItemsTyped decls env.vars is)
    (types : ∀ i ∈ is, ∀ t ∈ i.types, t.isConcrete = true)
    (forced : ∀ i ∈ is, ∀ e ∈ i.exprs, e.thunksForced = true)
    (supports : Supports env ∅ ctx n (is.flatMap Item.binders) A) :
    Lifts n (items ctx is) fun outs _ => ItemsTake decls.lift A is outs := by
  induction is generalizing env ctx n A with
  | nil => exact .pure (.nil A)
  | cons i is ih =>
    obtain ⟨forced, forceds⟩ := List.forall_mem_cons.mp forced
    obtain ⟨types, typess⟩ := List.forall_mem_cons.mp types
    rw [List.flatMap_cons] at supports
    cases typed with
    | @definition _ _ d _ vars typed typeds =>
      rw [Item.binders, List.cons_append] at supports
      refine .bind (definition_lift concrete vars typed (types _ List.mem_cons_self)
        (forced _ List.mem_cons_self) supports) fun r i le hr => ?_
      obtain ⟨ctx', item⟩ := r
      obtain ⟨e, rfl, any, fresh, first, supports⟩ := hr
      refine .bind (ih typeds typess forceds supports) fun outs _ _ takes => .pure ?_
      refine .definition ?_ fresh first takes
      rw [any]
      exact Ty.any_admits _
    | @scope _ s _ typed typeds =>
      rw [Item.binders, List.cons_append] at supports
      have lets : ∀ l ∈ s.body.lets, l.expr.thunksForced = true := fun l hl =>
        forced _ (List.mem_append_left _ (List.mem_map_of_mem hl))
      have result : s.body.result.thunksForced = true :=
        forced _ (List.mem_append_right _ List.mem_cons_self)
      refine .bind (scope_lift concrete typed (fun l hl => types _ (List.mem_map_of_mem hl)) lets
        result supports) fun r i le hr => ?_
      obtain ⟨ctx', item⟩ := r
      obtain ⟨s', rfl, fresh, first, supports⟩ := hr
      refine .bind (ih typeds typess forceds supports) fun outs _ _ takes => .pure ?_
      exact .scope fresh first takes

end Items

theorem supports_empty (nodup : bs.Nodup) : Supports .empty ∅ ∅ n bs (Ctx.known .empty ∅ ∅) :=
  have ready : Ready .empty ∅ ∅ n bs := ⟨by simp, by simp, by simp, nodup⟩
  ⟨ready, ready.known_below, fun _ _ known => known⟩

theorem program_lift {p : Program Mark} (concrete : p.decls.Concrete)
    (typed : ItemsTyped p.decls ∅ p.items) (types : ∀ t ∈ p.types, t.isConcrete = true)
    (forced : ∀ e ∈ p.exprs, e.thunksForced = true) (nodup : p.binders.Nodup) :
    Lifts n p.lift fun l _ => l.decls = p.decls.lift ∧
      ItemsTake p.decls.lift (Ctx.known .empty ∅ ∅) p.items l.items := by
  have types : ∀ i ∈ p.items, ∀ t ∈ i.types, t.isConcrete = true := fun i hi t ht =>
    types t (List.mem_flatMap.mpr ⟨i, hi, ht⟩)
  have forced : ∀ i ∈ p.items, ∀ e ∈ i.exprs, e.thunksForced = true := fun i hi e he =>
    forced e (List.mem_flatMap.mpr ⟨i, hi, he⟩)
  refine .bind (items_lift concrete typed types forced (supports_empty nodup)) fun outs _ _ takes => ?_
  exact .pure ⟨rfl, takes⟩

/-- A program that has passed the checker is lifted to one that passes it as well, with the lifted
types. -/
theorem lifted_program_checks (p : Program Mark) (ordered : ∀ e ∈ p.exprs, e.Ordered)
    (nodup : p.binders.Nodup) (tracing : Bool) (c : CheckedProgram)
    (checked : p.check tracing = .ok c) (concrete : c.program.decls.Concrete)
    (types : ∀ t ∈ c.program.types, t.isConcrete = true)
    (forced : ∀ e ∈ c.program.exprs, e.thunksForced = true) (n m : Nat) (l : Program Mark)
    (lifted : c.program.lift n = (.ok l, m)) (tracing' : Bool) :
    ∃ r, l.check tracing' = .ok r ∧
      List.Forall₂ Item.Retyped c.program.items r.program.items := by
  obtain ⟨decls, typed, admits⟩ := program_typed ordered checked
  have binders : p.binders = c.program.binders :=
    flatMap_eq_of_forall₂ admits fun _ _ _ h => h.binders_eq
  rw [binders] at nodup
  rw [← decls] at typed
  obtain ⟨_, declsLifted, takes⟩ := program_lift concrete typed types forced nodup l m lifted
  have holds : (Ctx.known .empty ∅ ∅).Holds .empty ∅ := by
    rintro _ _ ⟨v, b, t, found, _⟩
    simp at found
  obtain ⟨r, run, retyped⟩ := items_complete takes holds tracing'
  rw [← declsLifted] at run
  refine ⟨⟨{ l with items := r.1 }, r.2.1, r.2.2⟩, ?_, retyped⟩
  change Except.bind (checkItems l.decls tracing' .empty l.items) _ = _
  rw [run]
  rfl

section Example

private def readAmount (v : Var) : Expr Mark := .field (.var v .blank) "Wage" "amount" .blank

private def ofAmount (v : Var) : Expr Mark := .record "Wage" [("amount", .var v .blank)] .blank

private def letOf (v : Var) (role : LetRole) (e : Expr Mark) : ScopeLet Mark :=
  ⟨v, role, .any, e, .synthetic⟩

/-- A scope that returns its input, and one that calls it and adds a bonus. -/
def payroll : Program Mark where
  decls := wage
  items :=
    let base : ScopeBody Mark :=
      { inputVar := ⟨1, "in"⟩, input := "Wage", output := "Wage"
        lets := [letOf ⟨2, "amount"⟩ .input (readAmount ⟨1, "in"⟩)]
        result := ofAmount ⟨2, "amount"⟩ }
    let total : ScopeBody Mark :=
      { inputVar := ⟨5, "in"⟩, input := "Wage", output := "Wage"
        lets :=
          [letOf ⟨6, "amount"⟩ .input (readAmount ⟨5, "in"⟩),
            letOf ⟨7, "arg"⟩ .callInput (.force (.var ⟨6, "amount"⟩ .blank) .blank),
            letOf ⟨8, "called"⟩ .call
              (.app (.var ⟨0, "base"⟩ .blank) [ofAmount ⟨7, "arg"⟩] .blank),
            letOf ⟨9, "sum"⟩ .definition (.app (.op (.add .int) .blank)
              [readAmount ⟨8, "called"⟩, .var ⟨3, "bonus"⟩ .blank] .blank)]
        result := ofAmount ⟨9, "sum"⟩ }
    [.scope ⟨"Base", ⟨0, "base"⟩, base, .synthetic⟩,
      .definition ⟨⟨3, "bonus"⟩, .any, .lit (.int 3) .blank, .synthetic⟩,
      .scope ⟨"Total", ⟨4, "total"⟩, total, .synthetic⟩]

theorem payroll_checks : ∃ c l m, payroll.check false = .ok c ∧ c.program.lift 10 = (.ok l, m) ∧
    ∃ r, l.check false = .ok r ∧ List.Forall₂ Item.Retyped c.program.items r.program.items := by
  have found : (payroll.check false).toOption.any (fun c =>
      c.program.types.all (·.isConcrete) && c.program.exprs.all (·.thunksForced) &&
        (c.program.lift 10).1.toOption.any (fun _ => true)) = true := by
    decide +kernel
  obtain ⟨c, checked, found⟩ := exists_ok found
  simp only [Bool.and_eq_true, List.all_eq_true] at found
  obtain ⟨⟨types, forced⟩, lifted⟩ := found
  obtain ⟨l, m, lifted, _⟩ := exists_run lifted
  have ordered : ∀ e ∈ payroll.exprs, e.Ordered := by decide +kernel
  have decls : c.program.decls = wage := (program_typed ordered checked).1
  have concrete : c.program.decls.Concrete := by
    rw [decls]
    exact ⟨Dict.forall_get?_iff.mpr (by decide), Dict.forall_get?_iff.mpr (by decide)⟩
  exact ⟨c, l, m, checked, lifted, lifted_program_checks payroll ordered (by decide +kernel) false c
    checked concrete types forced 10 m l lifted false⟩

end Example

end Ordinance.Lift
