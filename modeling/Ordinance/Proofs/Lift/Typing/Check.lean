import Ordinance.Proofs.Lift.Typing.Expr
import Ordinance.Proofs.Typing.Completeness.Check
import Ordinance.Proofs.Typing.Soundness.Check

namespace Ordinance

open Typing

/-- No variable is of an open type. -/
def Env.Concrete (env : Env) : Prop := ∀ v t, env.var? v = some t → t.isConcrete = true

theorem Env.Concrete.varTy_iff {env : Env} (h : env.Concrete) {v : Var} {t : Ty} :
    VarTy env ∅ v t ↔ env.var? v = some t := by
  constructor
  · rintro ⟨u, found, admits⟩
    rwa [← admits.eq_of_isConcrete (h v u found)]
  · exact fun found => ⟨t, found, .refl t⟩

namespace Lift

/-- The type of the variable that stands for one of the type `t` in lifted expressions. -/
def Mode.lift (t : Ty) : Mode → Ty
  | .payload => t.lift
  | .option => .option t.lift
  | .scope => t

theorem Mode.image_of_isConcrete {t : Ty} (h : t.isConcrete = true) (mode : Mode) :
    mode.image t = mode.lift t := by
  cases mode <;> simp [Mode.image, Mode.lift, Ty.image_of_isConcrete h]

/-- The context binds variables of the first environment to older variables, which have their lifted
types in the second. Only a function between records can be a scope. -/
def Ctx.Translates (ctx : Ctx) (env env' : Env) (n : Nat) : Prop :=
  ∀ v b, ctx.get? v = some b → b.target.id < n ∧ ∃ t, env.var? v = some t ∧
    (b.mode = .scope → ∃ input output, t = .arrow [.struct input] (.struct output)) ∧
    env'.var? b.target = some (b.mode.lift t)

variable {decls : Decls} {env env' : Env} {ctx : Ctx} {n : Nat} {bs : List Var}

theorem Ctx.Translates.ready (h : ctx.Translates env env' n) (concrete : env.Concrete)
    (apart : ∀ v ∈ bs, env.var? v = none) (nodup : bs.Nodup) : Ready env ∅ ctx n bs where
  below v b found := (h v b found).1
  scopes v b t found scope hv := by
    obtain ⟨_, u, hu, shape, _⟩ := h v b found
    obtain rfl : u = t := by simpa [hu] using concrete.varTy_iff.mp hv
    exact shape scope
  apart v hv := by
    cases found : ctx.get? v with
    | none => rfl
    | some b =>
      obtain ⟨_, t, ht, _⟩ := h v b found
      simp [apart v hv] at ht
  nodup := nodup

theorem Ctx.Translates.holds (h : ctx.Translates env env' n) (concrete : env.Concrete) :
    (ctx.known env ∅).Holds env' ∅ := by
  rintro _ _ ⟨v, b, t, found, hv, rfl, rfl⟩
  obtain ⟨_, u, hu, _, target⟩ := h v b found
  obtain rfl : u = t := by simpa [hu] using concrete.varTy_iff.mp hv
  refine ⟨b.mode.lift u, target, ?_⟩
  rw [Mode.image_of_isConcrete (concrete v u hu)]
  exact .refl _

/-- What an expression that has passed the checker is lifted to passes it as well, at the lifted
type. -/
theorem lifted_checks (decls : Decls) (env env' : Env) (e t : Expr Mark) (ordered : e.Ordered)
    (checked : e.synthesize decls env = .ok t ∨ ∃ u, e.check decls env u = .ok t)
    (concreteDecls : decls.Concrete) (concreteEnv : env.Concrete) (forced : t.thunksForced = true)
    (nodup : t.binders.Nodup) (apart : ∀ v ∈ t.binders, env.var? v = none)
    (ctx : Ctx) (n : Nat) (translates : ctx.Translates env env' n) (out : Expr Mark) (m : Nat)
    (lifted : t.lift ctx n = (.ok out, m)) :
    ∃ r, out.check decls.lift env' (.option t.mark.ty.lift) = .ok r := by
  have typed : HasTy Eq decls env ∅ t t.mark.ty := by
    rcases checked with h | ⟨u, h⟩
    · exact (synthesize_hasTy ordered h).1
    · exact (check_hasTy ordered h).1
  have ready : Ready env ∅ ctx n t.binders := translates.ready concreteEnv apart nodup
  obtain ⟨_, typedOut⟩ :=
    lift_preserves concreteDecls t typed forced ready (Nat.le_refl n) out m lifted
  have holds := translates.holds concreteEnv
  exact check_of_hasTy (typedOut ∅ holds) (Ty.lift_admits_image t.mark.ty)

section Example

private def scopeVar : Var := ⟨0, "scope"⟩

private def delayedVar : Var := ⟨1, "delayed"⟩

/-- A record with one field. -/
def wage : Decls := ⟨.ofList [("Wage", .ofList [("amount", .int)])], ∅⟩

def wageEnv : Env :=
  (Env.empty.bindVar scopeVar (.arrow [.struct "Wage"] (.struct "Wage"))).bindVar delayedVar
    (.arrow [.unit] .int)

def wageCtx : Ctx :=
  (Dict.insert ∅ scopeVar ⟨⟨2, "scope"⟩, .scope⟩).insert delayedVar ⟨⟨3, "delayed"⟩, .option⟩

def liftedWageEnv : Env :=
  (Env.empty.bindVar ⟨2, "scope"⟩ (.arrow [.struct "Wage"] (.struct "Wage"))).bindVar
    ⟨3, "delayed"⟩ (.option .int)

/-- `fun _ => scope(Wage { amount = delayed () }).amount` -/
def wageCall : Expr Mark :=
  let m : Mark := .blank
  let argument : Expr Mark :=
    .record "Wage" [("amount", .app (.var delayedVar m) [.lit .unit m] m)] m
  .lam [⟨4, "x"⟩] [.int] (.field (.app (.var scopeVar m) [argument] m) "Wage" "amount" m) m

/-- The lifted call is a function that is present, and larger than the call. -/
theorem wageCall_checks : ∃ t out m, wageCall.synthesize wage wageEnv = .ok t ∧
    t.lift wageCtx 5 = (.ok out, m) ∧ t.size = 8 ∧ out.size = 14 ∧
    out.head = .inject Optional.enum Optional.present ∧
    ∃ r, out.check wage.lift liftedWageEnv (.option (.arrow [.int] (.option .int))) = .ok r := by
  have found : (wageCall.synthesize wage wageEnv).toOption.any (fun t =>
      t.thunksForced && decide t.binders.Nodup &&
        decide (∀ v ∈ t.binders, wageEnv.var? v = none) &&
        decide (t.mark.ty = .arrow [.int] .int) && decide (t.size = 8) &&
        (t.lift wageCtx 5).1.toOption.any fun out =>
          decide (out.size = 14 ∧ out.head = .inject Optional.enum Optional.present)) = true := by
    decide +kernel
  have translates : wageCtx.Translates wageEnv liftedWageEnv 5 := by
    refine Dict.forall_get?_iff.mpr (List.forall_mem_cons.mpr ⟨?_, List.forall_mem_singleton.mpr ?_⟩)
    · exact ⟨by decide, _, rfl, fun _ => ⟨_, _, rfl⟩, rfl⟩
    · exact ⟨by decide, _, rfl, nofun, rfl⟩
  have concreteDecls : wage.Concrete :=
    ⟨Dict.forall_get?_iff.mpr (by decide), Dict.forall_get?_iff.mpr (by decide)⟩
  have concreteEnv : wageEnv.Concrete := Dict.forall_get?_iff.mpr (by decide)
  obtain ⟨t, checked, found⟩ := exists_ok found
  simp only [Bool.and_eq_true, decide_eq_true_eq] at found
  obtain ⟨⟨⟨⟨⟨forced, nodup⟩, apart⟩, ty⟩, size⟩, lifted⟩ := found
  obtain ⟨out, m, lifted, shape⟩ := exists_run lifted
  obtain ⟨size', head⟩ := of_decide_eq_true shape
  have result := lifted_checks wage wageEnv liftedWageEnv wageCall t (by decide) (.inl checked)
    concreteDecls concreteEnv forced nodup apart wageCtx 5 translates out m lifted
  rw [ty] at result
  exact ⟨t, out, m, checked, lifted, size, size', head, result⟩

end Example

end Lift

end Ordinance
