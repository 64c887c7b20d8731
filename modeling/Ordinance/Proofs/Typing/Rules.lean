import Ordinance.Op.Signature
import Ordinance.Proofs.Dict
import Ordinance.Proofs.Expr.Basic
import Ordinance.Typing.Env

namespace Ordinance

/-- Types for the shapes of a signature, each in terms of those that it names. -/
def Op.Solves (shapes : List (Shape Nat)) (types : Nat → Ty) : Prop :=
  ∀ x ∈ shapes.zipIdx, x.1 ≠ .any → types x.2 = .ofShape (x.1.map types)

/-- The types that an operator can be used at. -/
def Op.HasTy (o : Op) (t : Ty) : Prop :=
  ∃ shapes types, o.signature = some shapes ∧ Op.Solves shapes types ∧
    t = types (shapes.length - 1)

namespace Typing

/-- A bound variable has the type of its binder, any other an instance of the type it is known by. -/
def VarTy (env : Env) (Γ : Dict Var Ty) (v : Var) (t : Ty) : Prop :=
  match Γ.get? v with
  | some u => t = u
  | none => ∃ u, env.var? v = some u ∧ u.Admits t

theorem varTy_of_vars {env env' : Env} {Γ : Dict Var Ty} {v : Var} {t : Ty}
    (h : env.vars = env'.vars) : VarTy env Γ v t ↔ VarTy env' Γ v t := by
  rw [VarTy, VarTy, Env.var?, Env.var?, h]

/-- The type that the environment gives to a location. -/
def locationTy? (env : Env) : Location → Option Ty
  | .scopeVar x => env.scopeVar? x
  | .subScopeVar scope _ x => env.subScopeVar? scope x

/-- The values of the type `t` are those of an enum whose cases `names` carry `payloads`. -/
inductive Enumerates (decls : Decls) : String → Ty → List String → List Ty → Prop
  | optional (t : Ty) :
      Enumerates decls Optional.enum (.option t) [Optional.absent, Optional.present] [.unit, t]
  | declared {enum : String} {layout : Layout} {payloads : List Ty} :
      enum ≠ Optional.enum → decls.enums.get? enum = some layout →
      Ty.AdmitsAll layout.values payloads →
      Enumerates decls enum (.enum enum) layout.keys payloads

theorem Enumerates.length_eq {decls : Decls} {enum : String} {t : Ty} {names : List String}
    {payloads : List Ty} (h : Enumerates decls enum t names payloads) : names.length = payloads.length := by
  cases h with
  | optional => rfl
  | declared _ _ admits =>
    rw [← admits.length_eq]
    simp [Dict.keys, Dict.values]

/-- The typing rules. The types that nodes and binders come with have to fit those they have:
`Eq` for a tree in which they are recorded, `Ty.Admits` for one in which some may be open. -/
inductive HasTy (fits : Ty → Ty → Prop) (decls : Decls) (env : Env) :
    Dict Var Ty → Expr Mark → Ty → Prop
  | var {Γ v m t} : VarTy env Γ v t → fits m.ty t → HasTy fits decls env Γ (.var v m) t
  | lit {Γ l m} : fits m.ty (.base l.ty) → HasTy fits decls env Γ (.lit l m) (.base l.ty)
  | tuple {Γ es m ts} : es.length = ts.length →
      (∀ x ∈ es.zip ts, HasTy fits decls env Γ x.1 x.2) → fits m.ty (.tuple ts) →
      HasTy fits decls env Γ (.tuple es m) (.tuple ts)
  | component {Γ e index size m ts t} : HasTy fits decls env Γ e (.tuple ts) → ts.length = size →
      ts[index]? = some t → fits m.ty t → HasTy fits decls env Γ (.component e index size m) t
  | record {Γ struct fields m layout ts} : decls.structs.get? struct = some layout →
      fields.map (·.1) = layout.keys → Ty.AdmitsAll layout.values ts →
      (∀ x ∈ (fields.map (·.2)).zip ts, HasTy fits decls env Γ x.1 x.2) →
      fits m.ty (.struct struct) →
      HasTy fits decls env Γ (.record struct fields m) (.struct struct)
  | field {Γ e struct name m layout u t} : decls.structs.get? struct = some layout →
      layout.get? name = some u → u.Admits t → HasTy fits decls env Γ e (.struct struct) →
      fits m.ty t → HasTy fits decls env Γ (.field e struct name m) t
  | inject {Γ enum ctor e m names payloads u t} : Enumerates decls enum t names payloads →
      (ctor, u) ∈ names.zip payloads → HasTy fits decls env Γ e u → fits m.ty t →
      HasTy fits decls env Γ (.inject enum ctor e m) t
  | switch {Γ e enum cases m u payloads t} :
      Enumerates decls enum u (cases.map (·.1)) payloads → HasTy fits decls env Γ e u →
      (∀ x ∈ (cases.map (·.2)).zip payloads, HasTy fits decls env Γ x.1 (.arrow [x.2] t)) →
      fits m.ty t → HasTy fits decls env Γ (.switch e enum cases m) t
  | op {Γ o m t} : o.HasTy t → fits m.ty t → HasTy fits decls env Γ (.op o m) t
  | app {Γ f args m ts t} : HasTy fits decls env Γ f (.arrow ts t) → args.length = ts.length →
      (∀ x ∈ args.zip ts, HasTy fits decls env Γ x.1 x.2) → fits m.ty t →
      HasTy fits decls env Γ (.app f args m) t
  | lam {Γ params tys body m ts t} : params.length = tys.length → List.Forall₂ fits tys ts →
      HasTy fits decls env (Γ.insertMany (params.zip ts)) body t → fits m.ty (.arrow ts t) →
      HasTy fits decls env Γ (.lam params tys body m) (.arrow ts t)
  | default {Γ exceptions just cons m t} : (∀ e ∈ exceptions, HasTy fits decls env Γ e t) →
      HasTy fits decls env Γ just .bool → HasTy fits decls env Γ cons t → fits m.ty t →
      HasTy fits decls env Γ (.default exceptions just cons m) t
  | raise {Γ x m t} : fits m.ty t → HasTy fits decls env Γ (.raise x m) t
  | rescue {Γ body x handler m t} : HasTy fits decls env Γ body t →
      HasTy fits decls env Γ handler t → fits m.ty t →
      HasTy fits decls env Γ (.rescue body x handler m) t
  | force {Γ e m t} : HasTy fits decls env Γ e t → fits m.ty t →
      HasTy fits decls env Γ (.force e m) t
  | array {Γ es m t} : (∀ e ∈ es, HasTy fits decls env Γ e t) → fits m.ty (.array t) →
      HasTy fits decls env Γ (.array es m) (.array t)
  | ite {Γ cond yes no m t} : HasTy fits decls env Γ cond .bool →
      HasTy fits decls env Γ yes t → HasTy fits decls env Γ no t → fits m.ty t →
      HasTy fits decls env Γ (.ite cond yes no m) t
  | assert {Γ e m} : HasTy fits decls env Γ e .bool → fits m.ty .unit →
      HasTy fits decls env Γ (.assert e m) .unit
  | location {Γ l m u t} : locationTy? env l = some u → u.Admits t → fits m.ty t →
      HasTy fits decls env Γ (.location l m) t

variable {fits : Ty → Ty → Prop} {decls : Decls} {env : Env} {Γ : Dict Var Ty} {e d : Expr Mark}
  {t : Ty}

theorem HasTy.fits_mark (h : HasTy fits decls env Γ e t) : fits e.mark.ty t := by
  cases h <;> assumption

theorem fields_length {fields : List (String × Expr Mark)} {layout : Layout} {ts : List Ty}
    (names : fields.map (·.1) = layout.keys) (loads : Ty.AdmitsAll layout.values ts) :
    (fields.map (·.2)).length = ts.length := by
  have := congrArg List.length names
  simpa [← loads.length_eq, Dict.keys, Dict.values] using this

/-- The parts of what is well typed are well typed, and what the node does not bind has the same type
in them. -/
theorem HasTy.child_lookup (h : HasTy fits decls env Γ e t) (hd : d ∈ e.children) :
    ∃ Δ u, HasTy fits decls env Δ d u ∧ ∀ v, v ∉ e.params → Δ.get? v = Γ.get? v := by
  cases h with
  | var | lit | op | raise | location => cases hd
  | component typed | field _ _ _ typed | inject _ _ typed | force typed | assert typed =>
    obtain rfl := List.mem_singleton.mp hd
    exact ⟨_, _, typed, fun _ _ => rfl⟩
  | @lam _ params tys _ _ ts _ count binders typed =>
    obtain rfl := List.mem_singleton.mp hd
    refine ⟨_, _, typed, fun v hv => Dict.get?_insertMany_of_notMem ?_⟩
    have bound : (params.zip ts).map (·.1) = params :=
      List.map_fst_zip (Nat.le_of_eq (count.trans binders.length_eq))
    rwa [bound]
  | tuple length typed =>
    obtain ⟨u, hu⟩ := exists_mem_zip length hd
    exact ⟨_, _, typed _ hu, fun _ _ => rfl⟩
  | record _ names loads typed =>
    obtain ⟨u, hu⟩ := exists_mem_zip (fields_length names loads) hd
    exact ⟨_, _, typed _ hu, fun _ _ => rfl⟩
  | switch enumerates typed typedCases =>
    rcases List.mem_cons.mp hd with rfl | hd
    · exact ⟨_, _, typed, fun _ _ => rfl⟩
    · obtain ⟨u, hu⟩ := exists_mem_zip (by simpa using enumerates.length_eq) hd
      exact ⟨_, _, typedCases _ hu, fun _ _ => rfl⟩
  | app typed length typedArgs =>
    rcases List.mem_cons.mp hd with rfl | hd
    · exact ⟨_, _, typed, fun _ _ => rfl⟩
    · obtain ⟨u, hu⟩ := exists_mem_zip length hd
      exact ⟨_, _, typedArgs _ hu, fun _ _ => rfl⟩
  | default typed typedJust typedCons =>
    rcases List.mem_append.mp hd with hd | hd
    · exact ⟨_, _, typed d hd, fun _ _ => rfl⟩
    · rcases List.mem_pair.mp hd with rfl | rfl
      · exact ⟨_, _, typedJust, fun _ _ => rfl⟩
      · exact ⟨_, _, typedCons, fun _ _ => rfl⟩
  | rescue body handler =>
    rcases List.mem_pair.mp hd with rfl | rfl
    · exact ⟨_, _, body, fun _ _ => rfl⟩
    · exact ⟨_, _, handler, fun _ _ => rfl⟩
  | array typed => exact ⟨_, _, typed d hd, fun _ _ => rfl⟩
  | ite cond yes no =>
    rcases List.mem_cons.mp hd with rfl | hd
    · exact ⟨_, _, cond, fun _ _ => rfl⟩
    · rcases List.mem_pair.mp hd with rfl | rfl
      · exact ⟨_, _, yes, fun _ _ => rfl⟩
      · exact ⟨_, _, no, fun _ _ => rfl⟩

theorem HasTy.child (h : HasTy fits decls env Γ e t) (hd : d ∈ e.children) :
    ∃ Δ u, HasTy fits decls env Δ d u := by
  obtain ⟨Δ, u, typed, _⟩ := h.child_lookup hd
  exact ⟨Δ, u, typed⟩

end Typing

end Ordinance
