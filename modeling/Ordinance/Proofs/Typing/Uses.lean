import Ordinance.Proofs.Typing.Exact
import Ordinance.Proofs.Typing.Program

namespace Ordinance

section Uses

variable (v : Var)

/-- The types recorded where the expression refers to the `v` that is bound around it. -/
def Expr.uses (e : Expr Mark) : List Ty :=
  e.fold fun e below => if v ∈ e.params then [] else own e ++ below.flatten
where
  own : Expr Mark → List Ty
    | .var w m => if w = v then [m.ty] else []
    | _ => []

theorem Expr.uses_eq (e : Expr Mark) : e.uses v =
    if v ∈ e.params then [] else uses.own v e ++ e.children.flatMap (uses v) := by
  rw [uses, fold_eq]
  rfl

/-- The same of local definitions and of the result after them. -/
def ScopeBody.letsUses : List (ScopeLet Mark) → Expr Mark → List Ty
  | [], result => result.uses v
  | l :: ls, result => l.expr.uses v ++ if l.var = v then [] else letsUses ls result

def ScopeBody.uses (b : ScopeBody Mark) : List Ty :=
  if b.inputVar = v then [] else letsUses v b.lets b.result

def Item.uses : Item Mark → List Ty
  | .definition d => d.expr.uses v
  | .scope s => s.body.uses v

/-- The types recorded where the items refer to the `v` that is bound before them: up to the first
that binds it anew. -/
def Item.usesIn : List (Item Mark) → List Ty
  | [] => []
  | i :: is => i.uses v ++ if i.var = v then [] else usesIn is

end Uses

namespace Typing

variable {decls : Decls} {env : Env} {vars Γ Δ : Dict Var Ty} {v : Var} {w t u : Ty}

section Uses

/-- A variable that is not bound in the expression is used at instances of the type by which it is
known. -/
theorem HasTy.uses_admits {e : Expr Mark} (h : HasTy Eq decls env Γ e t)
    (free : Γ.get? v = none) (known : env.vars.get? v = some w) : ∀ u ∈ e.uses v, w.Admits u := by
  induction e using Expr.induct generalizing Γ t with
  | node e ih =>
    rw [Expr.uses_eq]
    split
    next => simp
    next unbound =>
      refine List.forall_mem_append.mpr ⟨fun u hu => ?_, fun u hu => ?_⟩
      · cases h with
        | @var _ x m _ ty recorded =>
          by_cases eq : x = v
          · subst eq
            obtain rfl : u = m.ty := by simpa [Expr.uses.own] using hu
            rw [VarTy, free] at ty
            obtain ⟨w', found, admits⟩ := ty
            obtain rfl : w = w' := Option.some.inj (known.symm.trans found)
            rwa [recorded]
          · simp [Expr.uses.own, eq] at hu
        | _ => cases hu
      · obtain ⟨d, hd, hu⟩ := List.mem_flatMap.mp hu
        obtain ⟨Δ, _, typed, same⟩ := h.child_lookup hd
        exact ih d hd typed ((same v unbound).trans free) u hu

theorem LetsTyped.uses_admits {ls : List (ScopeLet Mark)} {r : Expr Mark}
    (h : LetsTyped decls vars Γ ls Δ) (vars_eq : env.vars = vars) (result : HasTy Eq decls env Δ r t)
    (free : Γ.get? v = none) (known : vars.get? v = some w) :
    ∀ u ∈ ScopeBody.letsUses v ls r, w.Admits u := by
  induction h with
  | nil Γ => exact result.uses_admits free (vars_eq ▸ known)
  | @cons Γ Δ env₁ l ls same typed _ ih =>
    refine List.forall_mem_append.mpr ⟨typed.uses_admits free (same ▸ known), ?_⟩
    split
    next => simp
    next ne => exact ih result (by simpa [Ne.symm ne] using free)

theorem BodyTyped.uses_admits {b : ScopeBody Mark} (h : BodyTyped decls vars b)
    (known : vars.get? v = some w) : ∀ u ∈ b.uses v, w.Admits u := by
  obtain ⟨_, _, Γ, env, lets, vars_eq, result⟩ := h
  rw [ScopeBody.uses]
  split
  next => simp
  next ne => exact lets.uses_admits vars_eq result (by simp [Ne.symm ne]) known

theorem ItemsTyped.uses_admits {is : List (Item Mark)} (h : ItemsTyped decls vars is)
    (known : vars.get? v = some w) : ∀ u ∈ Item.usesIn v is, w.Admits u := by
  induction h with
  | nil => simp [Item.usesIn]
  | @definition vars env d is same typed _ ih =>
    refine List.forall_mem_append.mpr ⟨typed.uses_admits rfl (same ▸ known), ?_⟩
    split
    next => simp
    next ne =>
      have other : v ≠ d.var := Ne.symm ne
      exact ih (by simpa [other] using known)
  | @scope vars s is typed _ ih =>
    refine List.forall_mem_append.mpr ⟨typed.uses_admits known, ?_⟩
    split
    next => simp
    next ne =>
      have other : v ≠ s.var := Ne.symm ne
      exact ih (by simpa [other] using known)

end Uses

end Typing

open Typing

/-- The class of the type of a definition, in the store that its expression leaves. -/
def Definition.elaborated (decls : Decls) (env : Env) (d : Definition Mark) : TypeM Class := do
  let c ← load d.ty d.span
  let _ ← elaborate decls env ∅ (some c) d.expr
  return c

namespace Typing

variable {decls : Decls} {env : Env} {d : Definition Mark} {s t : Store} {c : Class} {u : Ty}
  {tracing : Bool}

section Instances

theorem definition_elaborated {d' : Definition Mark} {env' : Env}
    (run : d.check decls env s = .ok ((d', env'), t)) :
    ∃ c, d.elaborated decls env s = .ok (c, t) ∧ d'.ty = t.resolve c := by
  obtain ⟨c, s₁, loaded, run⟩ := bind_ok run
  obtain ⟨e, s₂, elaborated, run⟩ := bind_ok run
  cases run
  refine ⟨c, ?_, rfl⟩
  rw [Definition.elaborated, bind_run _ loaded, bind_run _ elaborated]
  rfl

theorem exists_fill_of_types {r : Expr Mark} (types : Types decls env d.expr r)
    (admits : d.ty.Admits r.mark.ty)
    (run : d.elaborated decls env (.empty tracing) = .ok (c, s)) : ∃ σ, s.fill σ c = r.mark.ty := by
  have start := reads_empty tracing r.mark.ty
  have completes : Completes (Store.empty tracing).resolve (.empty tracing)
      (d.elaborated decls env) fun c _ ψ => ψ c = r.mark.ty := by
    refine .bind (load_completes start.wf start.model admits) fun c s₁ φ₁ ext₁ hc => ?_
    refine .bind (elaborate_complete d.expr types.2 types.1 ((start.later ext₁).check hc))
      fun e s₂ φ₂ ext₂ _ => ?_
    exact .pure ext₂.wf ext₂.model (ext₂.carry hc).2
  obtain ⟨c', s', ψ, run', ext, reads⟩ := completes
  obtain ⟨rfl, rfl⟩ : c = c' ∧ s = s' := by simpa [run] using run'
  exact ⟨ψ, (ext.model.fill_eq c).trans reads⟩

theorem types_of_fill (ordered : d.expr.Ordered)
    (run : d.elaborated decls env (.empty tracing) = .ok (c, s)) (σ : Class → Ty) :
    ∃ r, Types decls env d.expr r ∧ r.mark.ty = s.fill σ c := by
  obtain ⟨_, s₁, loaded, run⟩ := bind_ok run
  obtain ⟨e, _, elaborated, run⟩ := bind_ok run
  cases run
  obtain ⟨hs₁, _, hc, _⟩ := load_sound (φ := s.fill σ) (Store.empty_wf tracing) d.ty c s₁ loaded
  obtain ⟨hs, _, settled, holds⟩ :=
    elaborate_sound ordered hs₁ ((scoped_empty s₁).check hc) e s elaborated
  obtain ⟨typed, filled⟩ := holds (hs.model_fill σ)
  have ty : (assign (s.fill σ) e).mark.ty = s.fill σ e.mark.cls := by rw [assign_mark]
  refine ⟨assign (s.fill σ) e, ⟨filled, ty ▸ typed⟩, ?_⟩
  rw [ty, settled.goal_eq rfl]

/-- The expression of a definition checks against a type just if that type can be completed by
choosing one type for each class that the expression leaves open. -/
theorem check_iff_exists_fill (ordered : d.expr.Ordered) (admits : d.ty.Admits u)
    (run : d.elaborated decls env (.empty tracing) = .ok (c, s)) :
    (∃ t, d.expr.check decls env u = .ok t) ↔ ∃ σ, u.Admits (s.fill σ c) := by
  constructor
  · rintro ⟨t, checked⟩
    obtain ⟨typed, filled, root⟩ := check_hasTy ordered checked
    obtain ⟨σ, reads⟩ := exists_fill_of_types ⟨filled, typed⟩ (admits.trans root) run
    exact ⟨σ, reads ▸ root⟩
  · rintro ⟨σ, root⟩
    obtain ⟨r, types, ty⟩ := types_of_fill ordered run σ
    obtain ⟨t, checked, _⟩ := check_of_types types (ty ▸ root)
    exact ⟨t, checked⟩

end Instances

theorem checkItems_append_ok {is js : List (Item Mark)}
    {r : List (Item Mark) × Env × List Step}
    (run : checkItems decls tracing env (is ++ js) = .ok r) : ∃ r₁ r₂,
      checkItems decls tracing env is = .ok r₁ ∧ checkItems decls tracing r₁.2.1 js = .ok r₂ ∧
      r.1 = r₁.1 ++ r₂.1 := by
  induction is generalizing env r with
  | nil => exact ⟨([], env, []), r, rfl, run, rfl⟩
  | cons i is ih =>
    obtain ⟨i', env₁, s, r', first, rest, rfl⟩ := checkItems_cons_ok run
    obtain ⟨r₁, r₂, run₁, run₂, eq⟩ := ih rest
    exact ⟨_, r₂, checkItems_cons first run₁, run₂, congrArg (i' :: ·) eq⟩

/-- Later items use a definition at instances of the type recorded for it, which has forgotten which
of its open places are one class. The expression of the definition checks against such an instance
just if these places can be given one type, and so it does if none is open. -/
theorem definition_used_at (p : Program Mark) (tracing : Bool) (c : CheckedProgram)
    (before after : List (Item Mark)) (d : Definition Mark) (ordered : ∀ e ∈ p.exprs, e.Ordered)
    (items : p.items = before ++ .definition d :: after) (checked : p.check tracing = .ok c) :
    ∃ b d' after' k s, Program.check ⟨p.decls, before⟩ tracing = .ok b ∧
      c.program.items = b.program.items ++ .definition d' :: after' ∧
      d.elaborated p.decls b.env (.empty tracing) = .ok (k, s) ∧ d'.ty = s.resolve k ∧
      ∀ u ∈ Item.usesIn d.var after', d'.ty.Admits u ∧
        ((∃ t, d.expr.check p.decls b.env u = .ok t) ↔ ∃ σ, u.Admits (s.fill σ k)) ∧
        (d'.ty.isConcrete = true → ∃ t, d.expr.check p.decls b.env u = .ok t) := by
  obtain ⟨r, run, rfl⟩ := program_check_iff.mp checked
  have ordered : ∀ i ∈ p.items, ∀ e ∈ i.exprs, e.Ordered := fun i hi e he =>
    ordered e (List.mem_flatMap.mpr ⟨i, hi, he⟩)
  rw [items] at run ordered
  obtain ⟨_, ordered⟩ := List.forall_mem_append.mp ordered
  obtain ⟨here, later⟩ := List.forall_mem_cons.mp ordered
  have own : d.expr.Ordered := here _ List.mem_cons_self
  obtain ⟨r₁, r₂, first, rest, eq⟩ := checkItems_append_ok run
  obtain ⟨_, env₁, s, r₃, second, last, rfl⟩ := checkItems_cons_ok rest
  obtain ⟨rfl, ⟨_, d', ⟨⟩, rfl, found⟩ | ⟨_, _, absurd, _, _⟩⟩ := item_ok second
  · obtain ⟨_, _, var, _, admits, _⟩ := definition_typed own (Store.empty_wf tracing) found
    obtain ⟨k, elaborated, ty⟩ := definition_elaborated found
    refine ⟨_, d', r₃.1, k, s, program_check_iff.mpr ⟨r₁, first, rfl⟩, eq, elaborated, ty,
      fun u hu => ?_⟩
    have known : (bindItem p.decls r₁.2.1 (.definition d')).vars.get? d.var = some d'.ty := by
      simp [bindItem, Env.bindVar, var]
    have used : d'.ty.Admits u := (items_typed later last).1.uses_admits known u hu
    have checks := check_iff_exists_fill own (admits.trans used) elaborated
    refine ⟨used, checks, fun concrete => checks.mpr ⟨fun _ => .any, ?_⟩⟩
    rw [← Store.resolve_eq_fill, ← ty, used.eq_of_isConcrete concrete]
    exact .refl u
  · cases absurd

section Misuse

/-- `fun x => x` as a definition with no type given. -/
def identityDefinition : Definition Mark := ⟨⟨1, "id"⟩, .any, identity, .synthetic⟩

/-- The identity, and its application to a number where a boolean is asked for. -/
def identityUsed : Program Mark where
  decls := default
  items :=
    let m : Mark := .blank
    [.definition identityDefinition,
      .definition ⟨⟨2, "flag"⟩, .bool, .app (.var ⟨1, "id"⟩ m) [.lit (.int 1) m] m, m.span⟩]

theorem identityUsed_uses : ∃ c, identityUsed.check false = .ok c ∧
    Item.usesIn ⟨1, "id"⟩ c.program.items.tail = [.arrow [.int] .bool] := by
  have found : (identityUsed.check false).toOption.map
      (fun c => Item.usesIn ⟨1, "id"⟩ c.program.items.tail) = some [.arrow [.int] .bool] := by
    decide +kernel
  obtain ⟨c, checked, uses⟩ := Option.map_eq_some_iff.mp found
  exact ⟨c, toOption_eq_some.mp checked, uses⟩

theorem identity_refuses (t : Expr Mark) :
    identity.check default .empty (.arrow [.int] .bool) ≠ .ok t := by
  have refused : (identity.check default .empty (.arrow [.int] .bool)).toOption.isNone := by
    decide +kernel
  intro checked
  simp [checked, Except.toOption] at refused

/-- The identity is recorded at `any → any`, an instance of which is `int → bool`; but there is no
type for its one open class that makes it that. -/
theorem identity_used_at : (∀ e ∈ identityUsed.exprs, e.Ordered) ∧
    ∃ c b d' after' k s, identityUsed.check false = .ok c ∧
      Program.check ⟨default, []⟩ false = .ok b ∧
      c.program.items = b.program.items ++ .definition d' :: after' ∧
      identityDefinition.elaborated default b.env (.empty false) = .ok (k, s) ∧
      d'.ty = s.resolve k ∧ .arrow [.int] .bool ∈ Item.usesIn ⟨1, "id"⟩ after' ∧
      d'.ty.Admits (.arrow [.int] .bool) ∧ ¬ ∃ σ, Ty.Admits (.arrow [.int] .bool) (s.fill σ k) := by
  have ordered : ∀ e ∈ identityUsed.exprs, e.Ordered := by decide +kernel
  obtain ⟨c, checked, uses⟩ := identityUsed_uses
  obtain ⟨b, d', after', k, s, first, items, elaborated, ty, used⟩ :=
    definition_used_at identityUsed false c [] _ identityDefinition ordered rfl checked
  obtain rfl : ⟨⟨default, []⟩, .empty, []⟩ = b := Except.ok.inj first
  have mem : .arrow [.int] .bool ∈ Item.usesIn ⟨1, "id"⟩ after' := by
    rw [items] at uses
    exact uses ▸ List.mem_singleton_self _
  obtain ⟨admits, checks, _⟩ := used _ mem
  refine ⟨ordered, c, _, d', after', k, s, checked, rfl, items, elaborated, ty, mem, admits, ?_⟩
  intro filled
  obtain ⟨t, accepted⟩ := checks.mpr filled
  exact identity_refuses t accepted

/-- A definition is used at a type against which its own expression does not check. -/
theorem identity_misused : ∃ c, identityUsed.check false = .ok c ∧
    .arrow [.int] .bool ∈ Item.usesIn identityDefinition.var c.program.items.tail ∧
    ∀ t, identityDefinition.expr.check default .empty (.arrow [.int] .bool) ≠ .ok t := by
  obtain ⟨c, checked, uses⟩ := identityUsed_uses
  exact ⟨c, checked, uses ▸ List.mem_singleton_self _, identity_refuses⟩

end Misuse

end Typing

end Ordinance
