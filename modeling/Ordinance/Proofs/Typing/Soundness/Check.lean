import Ordinance.Proofs.Typing.Soundness.Control
import Ordinance.Proofs.Typing.Soundness.Data
import Ordinance.Samples
import Ordinance.Typing.Check

namespace Ordinance.Typing

variable {decls : Decls} {env : Env}

/-- What is elaborated is well typed, however its classes are read. -/
theorem elaborate_sound {e : Expr Mark} (ordered : e.Ordered) : SoundAt decls env e := by
  induction e using Expr.induct with
  | node e ih =>
    obtain ⟨ascend, below⟩ := Expr.ordered_iff.mp ordered
    replace ih : ∀ d ∈ e.children, SoundAt decls env d := fun d hd => ih d hd (below d hd)
    cases e with
    | var v m => exact .var v
    | lit l m => exact .lit l
    | tuple es m => exact .tuple ih
    | component e i n m => exact .component (ih e (by simp [Expr.children]))
    | record struct fields m => exact .record ascend (List.forall_mem_map.mp ih)
    | field e struct name m => exact .field (ih e (by simp [Expr.children]))
    | inject enum ctor e m => exact .inject (ih e (by simp [Expr.children]))
    | switch e enum cases m =>
      obtain ⟨he, hc⟩ := List.forall_mem_cons.mp ih
      exact .switch ascend he (List.forall_mem_map.mp hc)
    | op o m => exact .op o
    | app f args m =>
      obtain ⟨hf, ha⟩ := List.forall_mem_cons.mp ih
      exact .app hf ha
    | lam params tys body m => exact .lam (ih body (by simp [Expr.children]))
    | default es just cons m =>
      refine .default (fun d hd => ih d ?_) (ih just ?_) (ih cons ?_) <;>
        simp_all [Expr.children]
    | raise x m => exact .raise x
    | rescue body x handler m =>
      exact .rescue x (ih body (by simp [Expr.children])) (ih handler (by simp [Expr.children]))
    | force e m => exact .force (ih e (by simp [Expr.children]))
    | array es m => exact .array ih
    | ite c a b m =>
      refine .ite (ih c ?_) (ih a ?_) (ih b ?_) <;> simp [Expr.children]
    | assert e m => exact .assert (ih e (by simp [Expr.children]))
    | location l m => exact .location l

theorem finish_eq (s : Store) (e : Expr Pending) : Pending.finish s e = assign s.resolve e := rfl

variable {e t : Expr Mark}

/-- Reading the store back is one way to read it. -/
theorem elaborate_finish {s s' : Store} {locals : Locals} {goal : Option Class} {e' : Expr Pending}
    (ordered : e.Ordered) (hs : s.Wf) (h : Scoped s locals goal)
    (run : elaborate decls env locals goal e s = .ok (e', s')) :
    s'.Wf ∧ s.Le s' ∧ Settled goal e.mark e'.mark s' ∧
      HasTy Eq decls env (locals.mapValues s'.resolve) (Pending.finish s' e')
        (Pending.finish s' e').mark.ty ∧ e.Admits (Pending.finish s' e') := by
  obtain ⟨wf, le, settled, holds⟩ := elaborate_sound ordered hs h e' s' run
  refine ⟨wf, le, settled, ?_⟩
  rw [finish_eq, assign_mark]
  exact holds wf.model_resolve

theorem synthesize_ok (h : e.synthesize decls env = .ok t) : ∃ e' s,
    elaborate decls env ∅ none e (.empty false) = .ok (e', s) ∧ t = Pending.finish s e' := by
  change Except.bind (elaborate decls env ∅ none e (.empty false)) _ = _ at h
  cases run : elaborate decls env ∅ none e (.empty false) with
  | error x =>
    rw [run] at h
    cases h
  | ok r =>
    rw [run] at h
    cases h
    exact ⟨r.1, r.2, rfl, rfl⟩

theorem check_ok {u : Ty} (h : e.check decls env u = .ok t) : ∃ e' c s s',
    load u e.mark.span (.empty false) = .ok (c, s) ∧
      elaborate decls env ∅ (some c) e s = .ok (e', s') ∧ t = Pending.finish s' e' := by
  change Except.bind ((load u e.mark.span >>= fun c => elaborate decls env ∅ (some c) e)
    (.empty false)) _ = _ at h
  cases run : (load u e.mark.span >>= fun c => elaborate decls env ∅ (some c) e) (.empty false) with
  | error x =>
    rw [run] at h
    cases h
  | ok r =>
    rw [run] at h
    cases h
    obtain ⟨c, s, loaded, elaborated⟩ := bind_ok run
    exact ⟨r.1, c, s, r.2, loaded, elaborated, rfl⟩

theorem scoped_empty (s : Store) : Scoped s ∅ none := ⟨nofun, nofun⟩

theorem synthesize_hasTy (ordered : e.Ordered) (h : e.synthesize decls env = .ok t) :
    HasTy Eq decls env ∅ t t.mark.ty ∧ e.Admits t := by
  obtain ⟨e', s, run, rfl⟩ := synthesize_ok h
  obtain ⟨_, _, _, typed, admits⟩ :=
    elaborate_finish ordered (Store.empty_wf false) (scoped_empty _) run
  exact ⟨typed, admits⟩

theorem check_hasTy {u : Ty} (ordered : e.Ordered) (h : e.check decls env u = .ok t) :
    HasTy Eq decls env ∅ t t.mark.ty ∧ e.Admits t ∧ u.Admits t.mark.ty := by
  obtain ⟨e', c, s, s', loaded, run, rfl⟩ := check_ok h
  obtain ⟨hs, _, hc, reads⟩ := load_sound (Store.empty_wf false) u c s loaded
  obtain ⟨hs', le, settled, typed, admits⟩ :=
    elaborate_finish ordered hs ((scoped_empty s).check hc) run
  refine ⟨typed, admits, ?_⟩
  rw [finish_eq, assign_mark, settled.goal_eq rfl]
  exact reads (hs'.model_resolve.of_le hs le)

/-- The trees that the checker returns satisfy the typing rules with the types recorded in them, and
are the trees that it was given with the open types filled in. -/
theorem checked_hasTy (decls : Decls) (env : Env) (e : Expr Mark) (ordered : e.Ordered) :
    (∀ t, e.synthesize decls env = .ok t →
      HasTy Eq decls env ∅ t t.mark.ty ∧ e.Admits t) ∧
    ∀ u t, e.check decls env u = .ok t →
      HasTy Eq decls env ∅ t t.mark.ty ∧ e.Admits t ∧ u.Admits t.mark.ty :=
  ⟨fun _ h => synthesize_hasTy ordered h, fun _ _ h => check_hasTy ordered h⟩

/-- `fun x => match x with Absent => fun _ => 0 | Present => fun n => n`, with no types given. -/
def orZero : Expr Mark :=
  let m : Mark := .blank
  let branch (v : Var) (e : Expr Mark) : Expr Mark := .lam [v] [.any] e m
  branch ⟨0, "x"⟩ (.switch (.var ⟨0, "x"⟩ m) Optional.enum
    [(Optional.absent, branch ⟨1, "u"⟩ (.lit (.int 0) m)),
     (Optional.present, branch ⟨2, "n"⟩ (.var ⟨2, "n"⟩ m))] m)

theorem orZero_hasTy : orZero.Ordered ∧ ∃ t, orZero.synthesize default .empty = .ok t ∧
    HasTy Eq default .empty ∅ t (.arrow [.option .int] .int) ∧ orZero.Admits t := by
  have found : ((orZero.synthesize default .empty).toOption.map (·.mark.ty)) =
      some (.arrow [.option .int] .int) := by decide +kernel
  obtain ⟨t, checked, ty⟩ := Option.map_eq_some_iff.mp found
  have checked := toOption_eq_some.mp checked
  obtain ⟨typed, admits⟩ := (checked_hasTy default .empty orZero (by decide)).1 t checked
  exact ⟨by decide, t, checked, ty ▸ typed, admits⟩

end Ordinance.Typing
