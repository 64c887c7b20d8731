import Ordinance.Proofs.Typing.Program

namespace Ordinance

namespace Expr

/-- The variables of the scope that the expression refers to by name, with the types that are recorded
there. -/
def scopeVars (e : Expr Mark) : List (String × Ty) :=
  e.fold fun e below => own e ++ below.flatten
where
  own : Expr Mark → List (String × Ty)
    | location (.scopeVar x) m => [(x, m.ty)]
    | _ => []

theorem scopeVars_eq (e : Expr Mark) :
    e.scopeVars = scopeVars.own e ++ e.children.flatMap scopeVars := by
  rw [scopeVars, fold_eq]
  rfl

/-- Every variable of the scope is known, by a type of which the one that is recorded is an instance. -/
def LocationsFit (known : Dict String Ty) (e : Expr Mark) : Prop :=
  ∀ x ∈ e.scopeVars, ∃ t ∈ known.get? x.1, t.Admits x.2

instance (known : Dict String Ty) (e : Expr Mark) : Decidable (e.LocationsFit known) :=
  inferInstanceAs (Decidable (∀ x ∈ e.scopeVars, ∃ t ∈ known.get? x.1, t.Admits x.2))

theorem locationsFit_iff {known : Dict String Ty} {e : Expr Mark} :
    e.LocationsFit known ↔
      (∀ x ∈ scopeVars.own e, ∃ t ∈ known.get? x.1, t.Admits x.2) ∧
      ∀ d ∈ e.children, d.LocationsFit known := by
  unfold LocationsFit
  rw [scopeVars_eq, List.forall_mem_append]
  refine and_congr_right fun _ => ⟨fun h d hd x hx => ?_, fun h x hx => ?_⟩
  · exact h x (List.mem_flatMap.mpr ⟨d, hd, hx⟩)
  · obtain ⟨d, hd, hx⟩ := List.mem_flatMap.mp hx
    exact h d hd x hx

theorem LocationsFit.child {known : Dict String Ty} {e d : Expr Mark} (h : e.LocationsFit known)
    (hd : d ∈ e.children) : d.LocationsFit known := (locationsFit_iff.mp h).2 d hd

end Expr

/-- The same of local definitions and of the result after them, each of which knows the variables
defined before it by the types recorded for them. -/
def ScopeBody.LetsFit (known : Dict String Ty) : List (ScopeLet Mark) → Expr Mark → Prop
  | [], result => result.LocationsFit known
  | l :: ls, result =>
      l.expr.LocationsFit known ∧
        LetsFit (if l.role = .definition then known.insert l.var.name l.ty else known) ls result

/-- The locations of the scope are recorded at instances of the types recorded for their variables. -/
def ScopeBody.LocationsFit (b : ScopeBody Mark) : Prop := LetsFit ∅ b.lets b.result

def Item.LocationsFit : Item Mark → Prop
  | .definition _ => True
  | .scope s => s.body.LocationsFit

/-- The variables of the scope come with their types. -/
def Item.StatesTypes : Item Mark → Prop
  | .definition _ => True
  | .scope s => ∀ l ∈ s.body.lets, l.role = .definition → l.ty.isConcrete = true

def Program.LocationsFit (p : Program Mark) : Prop := ∀ i ∈ p.items, i.LocationsFit

section Decidable

instance ScopeBody.decidableLetsFit (known : Dict String Ty) (result : Expr Mark) :
    (ls : List (ScopeLet Mark)) → Decidable (LetsFit known ls result)
  | [] => inferInstanceAs (Decidable (result.LocationsFit known))
  | l :: ls =>
      have := decidableLetsFit
        (if l.role = .definition then known.insert l.var.name l.ty else known) result ls
      inferInstanceAs (Decidable (_ ∧ _))

instance : (i : Item Mark) → Decidable i.LocationsFit
  | .definition _ => inferInstanceAs (Decidable True)
  | .scope s => inferInstanceAs (Decidable (ScopeBody.LetsFit ∅ s.body.lets s.body.result))

instance (p : Program Mark) : Decidable p.LocationsFit :=
  inferInstanceAs (Decidable (∀ i ∈ p.items, i.LocationsFit))

end Decidable

namespace Typing

variable {decls : Decls} {env env' env₁ : Env} {Γ Δ : Dict Var Ty} {e r : Expr Mark} {t u : Ty}
  {ls ks : List (ScopeLet Mark)} {b c : ScopeBody Mark}

section Relocate

theorem HasTy.locationsFit (h : HasTy Eq decls env Γ e t) : e.LocationsFit env.scopeVars := by
  induction e using Expr.induct generalizing Γ t with
  | node e ih =>
    refine Expr.locationsFit_iff.mpr ⟨fun x hx => ?_, fun d hd => ?_⟩
    · cases h with
      | @location _ l m u _ found admits recorded =>
        cases l with
        | scopeVar name =>
          obtain rfl := List.mem_singleton.mp hx
          exact ⟨u, found, recorded ▸ admits⟩
        | subScopeVar => cases hx
      | _ => cases hx
    · obtain ⟨_, _, typed⟩ := h.child hd
      exact ih d hd typed

/-- Where other things are known of the variables of the scope, what fits them keeps its type. -/
theorem HasTy.relocate (h : HasTy Eq decls env Γ e t) (vars : env₁.vars = env.vars)
    (scopes : env₁.scopes = env.scopes) (fit : e.LocationsFit env₁.scopeVars) :
    HasTy Eq decls env₁ Γ e t := by
  induction h with
  | var known fits =>
    exact .var ((varTy_of_vars vars).mpr known) fits
  | lit fits => exact .lit fits
  | tuple length _ fits ih =>
    exact .tuple length (fun x hx => ih x hx (fit.child (List.of_mem_zip hx).1)) fits
  | component _ size part fits ih =>
    exact .component (ih (fit.child List.mem_cons_self)) size part fits
  | record declared names loads _ fits ih =>
    refine .record declared names loads (fun x hx => ih x hx ?_) fits
    exact fit.child (List.of_mem_zip hx).1
  | field declared has loads _ fits ih =>
    exact .field declared has loads (ih (fit.child List.mem_cons_self)) fits
  | inject enumerates has _ fits ih =>
    exact .inject enumerates has (ih (fit.child List.mem_cons_self)) fits
  | switch enumerates _ _ fits ih ihs =>
    refine .switch enumerates (ih (fit.child List.mem_cons_self)) (fun x hx => ihs x hx ?_) fits
    exact fit.child (List.mem_cons_of_mem _ (List.of_mem_zip hx).1)
  | op known fits => exact .op known fits
  | app _ length _ fits ih ihs =>
    refine .app (ih (fit.child List.mem_cons_self)) length (fun x hx => ihs x hx ?_) fits
    exact fit.child (List.mem_cons_of_mem _ (List.of_mem_zip hx).1)
  | lam count binders _ fits ih =>
    exact .lam count binders (ih (fit.child List.mem_cons_self)) fits
  | default _ _ _ fits ihs ihj ihc =>
    refine .default (fun d hd => ihs d hd (fit.child ?_)) (ihj (fit.child ?_)) (ihc (fit.child ?_))
      fits
    · exact List.mem_append_left _ hd
    · exact List.mem_append_right _ List.mem_cons_self
    · exact List.mem_append_right _ (List.mem_cons_of_mem _ List.mem_cons_self)
  | raise fits => exact .raise fits
  | rescue _ _ fits ihb ihh =>
    refine .rescue (ihb (fit.child List.mem_cons_self)) (ihh (fit.child ?_)) fits
    exact List.mem_cons_of_mem _ List.mem_cons_self
  | force _ fits ih => exact .force (ih (fit.child List.mem_cons_self)) fits
  | array _ fits ih => exact .array (fun d hd => ih d hd (fit.child hd)) fits
  | ite _ _ _ fits ihc ihy ihn =>
    refine .ite (ihc (fit.child List.mem_cons_self)) (ihy (fit.child ?_)) (ihn (fit.child ?_)) fits
    · exact List.mem_cons_of_mem _ List.mem_cons_self
    · exact List.mem_cons_of_mem _ (List.mem_cons_of_mem _ List.mem_cons_self)
  | assert _ fits ih => exact .assert (ih (fit.child List.mem_cons_self)) fits
  | @location _ l m u t found admits recorded =>
    cases l with
    | scopeVar name =>
      obtain ⟨v, known, admits⟩ := (Expr.locationsFit_iff.mp fit).1 _ (List.mem_singleton_self _)
      exact .location known (recorded ▸ admits) recorded
    | subScopeVar scope nickname name =>
      refine .location (u := u) ?_ admits recorded
      rw [locationTy?, Env.subScopeVar?, scopes]
      exact found

end Relocate

theorem scopeVars_publish (l : ScopeLet Mark) (u : Ty) : (publish env l u).scopeVars =
    if l.role = .definition then env.scopeVars.insert l.var.name u else env.scopeVars := by
  unfold publish
  split <;> rfl

/-- What is found for local definitions is found for them again just if their locations fit the types
in which they end. -/
theorem LetsFound.again_iff (h : LetsFound decls env Γ ls ks env' Δ)
    (result : HasTy Eq decls env' Δ r u) (vars : env₁.vars = env.vars)
    (scopes : env₁.scopes = env.scopes) :
    (∃ env₂ Δ', LetsFound decls env₁ Γ ks ks env₂ Δ' ∧ HasTy Eq decls env₂ Δ' r u) ↔
      ScopeBody.LetsFit env₁.scopeVars ks r := by
  induction h generalizing env₁ with
  | nil env Γ =>
    constructor
    · rintro ⟨_, _, found, typed⟩
      cases found
      exact typed.locationsFit
    · intro fit
      exact ⟨env₁, Γ, .nil env₁ Γ, result.relocate vars scopes fit⟩
  | @cons env env' Γ Δ l k ls ks t admits _ _ typed _ ih =>
    have vars' : (publish env₁ k k.ty).vars = (publish env k t).vars := by simpa using vars
    have scopes' : (publish env₁ k k.ty).scopes = (publish env k t).scopes := by simpa using scopes
    have later := ih result vars' scopes'
    rw [scopeVars_publish] at later
    rw [ScopeBody.LetsFit, ← later]
    constructor
    · rintro ⟨env₂, Δ', found, typedResult⟩
      cases found with
      | cons _ written settled typed rest =>
        -- There is one type between the recorded type and itself.
        rw [settled.antisymm written] at rest
        exact ⟨typed.locationsFit, env₂, Δ', rest, typedResult⟩
    · rintro ⟨fit, env₂, Δ', rest, typedResult⟩
      refine ⟨env₂, Δ', .cons ?_ (.refl _) (.refl _) (typed.relocate vars scopes fit) rest, typedResult⟩
      exact ⟨rfl, rfl, rfl, .refl _, .refl _⟩

theorem BodyFound.again_iff (h : BodyFound decls env b c) :
    BodyFound decls env c c ↔ ScopeBody.LetsFit env.scopeVars c.lets c.result := by
  obtain ⟨env', Γ, found, typed⟩ := h.lets
  rw [← found.again_iff typed rfl rfl]
  constructor
  · intro again
    exact again.lets
  · rintro ⟨env₂, Δ, found, typed⟩
    exact ⟨⟨rfl, rfl, rfl, found.admits, .refl _⟩, h.input, h.output, env₂, Δ, found, typed⟩

/-- Where the variables of the scope come with their types, nothing about them is left to be found. -/
theorem LetsFound.locationsFit (h : LetsFound decls env Γ ls ks env' Δ)
    (result : HasTy Eq decls env' Δ r u)
    (written : ∀ l ∈ ls, l.role = .definition → l.ty.isConcrete = true) :
    ScopeBody.LetsFit env.scopeVars ks r := by
  induction h with
  | nil env Γ => exact result.locationsFit
  | @cons env env' Γ Δ l k ls ks t admits first last typed _ ih =>
    obtain ⟨here, rest⟩ := List.forall_mem_cons.mp written
    have later := ih result rest
    rw [scopeVars_publish] at later
    refine ⟨typed.locationsFit, ?_⟩
    split
    next role =>
      rw [if_pos role] at later
      have concrete := here (admits.role.trans role)
      have same : t = k.ty := by
        rw [← first.eq_of_isConcrete concrete, ← admits.ty.eq_of_isConcrete concrete]
      rwa [← same]
    next role => rwa [if_neg role] at later

end Typing

end Ordinance
