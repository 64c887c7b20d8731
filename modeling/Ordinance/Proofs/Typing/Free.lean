import Ordinance.Proofs.Expr.Scope
import Ordinance.Proofs.Typing.Rules

namespace Ordinance

theorem Expr.mem_free_of_child {μ : Type} {e d : Expr μ} {v : Var} (hd : d ∈ e.children)
    (free : v ∈ d.free) (new : v ∉ e.params) : v ∈ e.free :=
  mem_free_iff.mpr (.inr ⟨⟨d, hd, free⟩, new⟩)

namespace Typing

variable {fits : Ty → Ty → Prop} {decls : Decls} {env : Env} {Γ Δ : Dict Var Ty} {e : Expr Mark}
  {t : Ty}

/-- What is well typed refers to known variables only. -/
theorem HasTy.exists_varTy (h : HasTy fits decls env Γ e t) {v : Var} (free : v ∈ e.free) :
    ∃ u, VarTy env Γ v u := by
  induction e using Expr.induct generalizing Γ t with
  | node e ih =>
    rcases Expr.mem_free_iff.mp free with named | ⟨⟨d, hd, free⟩, new⟩
    · cases h with
      | var hv _ =>
        obtain rfl := List.mem_singleton.mp named
        exact ⟨_, hv⟩
      | _ => cases named
    · obtain ⟨Δ, u, typed, same⟩ := h.child_lookup hd
      obtain ⟨u, hu⟩ := ih d hd typed free
      rw [VarTy, same v new] at hu
      exact ⟨u, hu⟩

/-- A type depends on the types of the free variables only. -/
theorem HasTy.congr_free (h : HasTy fits decls env Γ e t)
    (same : ∀ v ∈ e.free, Δ.get? v = Γ.get? v) : HasTy fits decls env Δ e t := by
  induction h generalizing Δ with
  | var hv fits =>
    rw [VarTy, ← same _ List.mem_cons_self] at hv
    exact .var hv fits
  | lit fits => exact .lit fits
  | op known fits => exact .op known fits
  | raise fits => exact .raise fits
  | location known loads fits => exact .location known loads fits
  | @lam _ params tys body m ts _ count binders _ fits ih =>
    refine .lam count binders (ih fun v hv => Dict.get?_insertMany_congr fun new => ?_) fits
    have names : (params.zip ts).map (·.1) = params :=
      List.map_fst_zip (Nat.le_of_eq (count.trans binders.length_eq))
    rw [names] at new
    exact same v (Expr.mem_free_of_child List.mem_cons_self hv new)
  | tuple length _ fits ih =>
    refine .tuple length (fun x hx => ih x hx fun v hv => same v ?_) fits
    exact Expr.mem_free_of_child (List.of_mem_zip hx).1 hv List.not_mem_nil
  | component _ length found fits ih =>
    refine .component (ih fun v hv => same v ?_) length found fits
    exact Expr.mem_free_of_child List.mem_cons_self hv List.not_mem_nil
  | record known names loads _ fits ih =>
    refine .record known names loads (fun x hx => ih x hx fun v hv => same v ?_) fits
    exact Expr.mem_free_of_child (List.of_mem_zip hx).1 hv List.not_mem_nil
  | field known found loads _ fits ih =>
    refine .field known found loads (ih fun v hv => same v ?_) fits
    exact Expr.mem_free_of_child List.mem_cons_self hv List.not_mem_nil
  | inject enumerates mem _ fits ih =>
    refine .inject enumerates mem (ih fun v hv => same v ?_) fits
    exact Expr.mem_free_of_child List.mem_cons_self hv List.not_mem_nil
  | switch enumerates _ _ fits ihe ihc =>
    refine .switch enumerates (ihe fun v hv => same v ?_)
      (fun x hx => ihc x hx fun v hv => same v ?_) fits
    · exact Expr.mem_free_of_child List.mem_cons_self hv List.not_mem_nil
    · exact Expr.mem_free_of_child (List.mem_cons_of_mem _ (List.of_mem_zip hx).1) hv List.not_mem_nil
  | app _ length _ fits ihf iha =>
    refine .app (ihf fun v hv => same v ?_) length (fun x hx => iha x hx fun v hv => same v ?_) fits
    · exact Expr.mem_free_of_child List.mem_cons_self hv List.not_mem_nil
    · exact Expr.mem_free_of_child (List.mem_cons_of_mem _ (List.of_mem_zip hx).1) hv List.not_mem_nil
  | default _ _ _ fits ihe ihj ihc =>
    refine .default (fun d hd => ihe d hd fun v hv => same v ?_) (ihj fun v hv => same v ?_)
      (ihc fun v hv => same v ?_) fits
    · exact Expr.mem_free_of_child (List.mem_append_left _ hd) hv List.not_mem_nil
    · exact Expr.mem_free_of_child (List.mem_append_right _ List.mem_cons_self) hv List.not_mem_nil
    · exact Expr.mem_free_of_child
        (List.mem_append_right _ (List.mem_cons_of_mem _ List.mem_cons_self)) hv List.not_mem_nil
  | rescue _ _ fits ihb ihh =>
    refine .rescue (ihb fun v hv => same v ?_) (ihh fun v hv => same v ?_) fits
    · exact Expr.mem_free_of_child List.mem_cons_self hv List.not_mem_nil
    · exact Expr.mem_free_of_child (List.mem_cons_of_mem _ List.mem_cons_self) hv List.not_mem_nil
  | force _ fits ih =>
    exact .force (ih fun v hv => same v (Expr.mem_free_of_child List.mem_cons_self hv List.not_mem_nil)) fits
  | array _ fits ih =>
    exact .array (fun d hd => ih d hd fun v hv => same v (Expr.mem_free_of_child hd hv List.not_mem_nil)) fits
  | ite _ _ _ fits ihc ihy ihn =>
    refine .ite (ihc fun v hv => same v ?_) (ihy fun v hv => same v ?_)
      (ihn fun v hv => same v ?_) fits
    · exact Expr.mem_free_of_child List.mem_cons_self hv List.not_mem_nil
    · exact Expr.mem_free_of_child (List.mem_cons_of_mem _ List.mem_cons_self) hv List.not_mem_nil
    · exact Expr.mem_free_of_child
        (List.mem_cons_of_mem _ (List.mem_cons_of_mem _ List.mem_cons_self)) hv List.not_mem_nil
  | assert _ fits ih =>
    exact .assert (ih fun v hv => same v (Expr.mem_free_of_child List.mem_cons_self hv List.not_mem_nil)) fits

/-- Well-typed trees list the names of fields and cases in order. -/
theorem HasTy.ordered (h : HasTy fits decls env Γ e t) : e.Ordered := by
  induction e using Expr.induct generalizing Γ t with
  | node e ih =>
    refine Expr.ordered_iff.mpr ⟨?_, fun d hd => ?_⟩
    · cases h with
      | @record _ _ _ _ layout _ _ names =>
        rw [Expr.namesAscend, names]
        exact decide_eq_true layout.keys_ascending
      | @switch _ _ _ cases _ _ _ _ enumerates =>
        generalize same : cases.map (·.1) = names at enumerates
        rw [Expr.namesAscend, same]
        cases enumerates with
        | optional => decide
        | @declared _ layout => exact decide_eq_true layout.keys_ascending
      | _ => rfl
    · obtain ⟨Δ, u, typed⟩ := h.child hd
      exact ih d hd typed

end Typing

end Ordinance
