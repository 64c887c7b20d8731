import Ordinance.Proofs.Typing.Completeness.Control
import Ordinance.Proofs.Typing.Completeness.Data
import Ordinance.Proofs.Typing.Filled
import Ordinance.Typing.Check

namespace Ordinance.Typing

variable {decls : Decls} {env : Env} {Γ : Dict Var Ty} {e : Expr Mark} {u w : Ty}

/-- What can be given types is elaborated wherever its context reads accordingly. -/
theorem elaborate_complete (e : Expr Mark) : CompleteAt decls env e := by
  induction e using Expr.induct with
  | node e ih =>
    cases e with
    | var v m => exact .var v
    | lit l m => exact .lit l
    | tuple es m => exact .tuple ih
    | component e i n m => exact .component i n (ih e (by simp [Expr.children]))
    | record struct fields m => exact .record ih
    | field e struct name m => exact .field struct name (ih e (by simp [Expr.children]))
    | inject enum ctor e m => exact .inject enum ctor (ih e (by simp [Expr.children]))
    | switch e enum cases m =>
      obtain ⟨he, hc⟩ := List.forall_mem_cons.mp ih
      exact .switch he hc
    | op o m => exact .op o
    | app f args m =>
      obtain ⟨hf, ha⟩ := List.forall_mem_cons.mp ih
      exact .app hf ha
    | lam params tys body m => exact .lam (ih body (by simp [Expr.children]))
    | default es just cons m =>
      refine .default (fun d hd => ih d ?_) (ih just ?_) (ih cons ?_) <;>
        simp_all [Expr.children]
    | raise x m => exact .raise x
    | rescue body x handler m =>
      exact .rescue x (ih body (by simp [Expr.children])) (ih handler (by simp [Expr.children]))
    | force e m => exact .force (ih e (by simp [Expr.children]))
    | array es m => exact .array ih
    | ite c a b m =>
      refine .ite (ih c ?_) (ih a ?_) (ih b ?_) <;> simp [Expr.children]
    | assert e m => exact .assert (ih e (by simp [Expr.children]))
    | location l m => exact .location l

/-- What has a type is elaborated to a class that reads as that type. -/
theorem elaborate_completes (h : HasTy Ty.Admits decls env Γ e u) {s : Store} {φ : Class → Ty}
    {locals : Locals} {goal : Option Class} (reads : Reads φ s locals goal Γ u) :
    Completes φ s (elaborate decls env locals goal e) fun e' t ψ =>
      e'.mark.cls < t.size ∧ ψ e'.mark.cls = u := by
  obtain ⟨r, admits, typed⟩ := h.exists_filled
  exact (elaborate_complete e typed admits reads).imp fun e' t ψ _ records => records.reads typed

theorem reads_empty (tracing : Bool) (u : Ty) :
    Reads (Store.empty tracing).resolve (.empty tracing) ∅ none ∅ u where
  wf := Store.empty_wf tracing
  model := (Store.empty_wf tracing).model_resolve
  bounded := ⟨nofun, nofun⟩
  locals_eq := rfl
  goal_eq := nofun

/-- An expression checks against every type that admits one of its types. -/
theorem check_of_hasTy (h : HasTy Ty.Admits decls env ∅ e u) (admits : w.Admits u) :
    ∃ t, e.check decls env w = .ok t := by
  have start := reads_empty false u
  have run : Completes _ _ (load w e.mark.span >>= fun c => elaborate decls env ∅ (some c) e) _ :=
    .bind (load_completes start.wf start.model admits) fun c t ψ ext hc =>
      elaborate_completes h ((start.later ext).check hc)
  obtain ⟨e', s, _, run, _⟩ := run
  refine ⟨Pending.finish s e', ?_⟩
  change Except.bind ((load w e.mark.span >>= fun c => elaborate decls env ∅ (some c) e)
    (.empty false)) _ = _
  rw [run]
  rfl

end Ordinance.Typing
