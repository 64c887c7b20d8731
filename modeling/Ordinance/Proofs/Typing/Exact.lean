import Ordinance.Proofs.Expr.Instance
import Ordinance.Proofs.Typing.Principal

namespace Ordinance.Typing

variable {decls : Decls} {env : Env} {e t r : Expr Mark} {w : Ty}

/-- `t` gives types to `e`, among them an instance of `w` to its root, and all other such trees are
instances of it. -/
structure MostGeneral (decls : Decls) (env : Env) (e : Expr Mark) (w : Ty) (t : Expr Mark) :
    Prop where
  types : Types decls env e t
  root : w.Admits t.mark.ty
  general : ∀ r, Types decls env e r → w.Admits r.mark.ty → t.Admits r

theorem MostGeneral.unique (h : MostGeneral decls env e w t) (k : MostGeneral decls env e w r) :
    t = r := by
  have there : t.Admits r := h.general r k.types k.root
  have back : r.Admits t := k.general t h.types h.root
  exact there.antisymm back

section Complete

theorem synthesize_of_types (h : Types decls env e r) :
    ∃ t, e.synthesize decls env = .ok t ∧ t.Admits r := by
  obtain ⟨admits, typed⟩ := h
  obtain ⟨e', s, ψ, run, ext, records⟩ :=
    elaborate_complete e typed admits (reads_empty false r.mark.ty)
  refine ⟨Pending.finish s e', ?_, finish_admits ext.model typed records⟩
  change Except.bind (elaborate decls env ∅ none e (.empty false)) _ = _
  rw [run]
  rfl

theorem check_of_types (h : Types decls env e r) (root : w.Admits r.mark.ty) :
    ∃ t, e.check decls env w = .ok t ∧ t.Admits r := by
  obtain ⟨admits, typed⟩ := h
  have start := reads_empty false r.mark.ty
  have run : Completes _ _ (load w e.mark.span >>= fun c => elaborate decls env ∅ (some c) e)
      fun e' t ψ => Records t ψ e' r :=
    .bind (load_completes start.wf start.model root) fun c t ψ ext hc =>
      elaborate_complete e typed admits ((start.later ext).check hc)
  obtain ⟨e', s, ψ, run, ext, records⟩ := run
  refine ⟨Pending.finish s e', ?_, finish_admits ext.model typed records⟩
  change Except.bind ((load w e.mark.span >>= fun c => elaborate decls env ∅ (some c) e)
    (.empty false)) _ = _
  rw [run]
  rfl

end Complete

section Exact

/-- A run that finds only trees that are right, and one above each of them, finds the most general
one. -/
theorem eq_ok_iff_of_run {x : Except Error (Expr Mark)}
    (sound : ∀ {t}, x = .ok t → Types decls env e t ∧ w.Admits t.mark.ty)
    (complete : ∀ {r}, Types decls env e r → w.Admits r.mark.ty → ∃ t, x = .ok t ∧ t.Admits r) :
    x = .ok t ↔ MostGeneral decls env e w t := by
  have general {t : Expr Mark} (h : x = .ok t) : MostGeneral decls env e w t := by
    obtain ⟨types, root⟩ := sound h
    refine ⟨types, root, fun r types root => ?_⟩
    obtain ⟨t', ok, above⟩ := complete types root
    obtain rfl : t = t' := Except.ok.inj (h.symm.trans ok)
    exact above
  refine ⟨general, fun h => ?_⟩
  obtain ⟨t', ok, _⟩ := complete h.types h.root
  rw [ok, (general ok).unique h]

variable (ordered : e.Ordered)

include ordered

theorem check_eq_ok_iff : e.check decls env w = .ok t ↔ MostGeneral decls env e w t := by
  refine eq_ok_iff_of_run (fun h => ?_) fun types root => check_of_types types root
  obtain ⟨typed, admits, root⟩ := check_hasTy ordered h
  exact ⟨⟨admits, typed⟩, root⟩

/-- Synthesis asks nothing of the root. -/
theorem synthesize_eq_ok_iff :
    e.synthesize decls env = .ok t ↔ MostGeneral decls env e .any t := by
  refine eq_ok_iff_of_run (fun h => ?_) fun types _ => synthesize_of_types types
  obtain ⟨typed, admits⟩ := synthesize_hasTy ordered h
  exact ⟨⟨admits, typed⟩, Ty.any_admits _⟩

end Exact

section Directions

/-- A type written at an open root is a type asked of the root. -/
theorem types_annotate (root : e.mark.ty = .any) :
    Types decls env (e.annotate w) r ↔ Types decls env e r ∧ w.Admits r.mark.ty := by
  have admits : (e.annotate w).Admits r ↔ e.Admits r ∧ w.Admits r.mark.ty := by
    constructor
    · rintro ⟨head, span, ty, parts⟩
      rw [Expr.head_annotate] at head
      rw [Expr.mark_annotate] at span ty
      rw [Expr.children_annotate] at parts
      exact ⟨.node head span (root ▸ Ty.any_admits _) parts, ty⟩
    · rintro ⟨⟨head, span, _, parts⟩, ty⟩
      refine .node ?_ ?_ ?_ ?_
      · rwa [Expr.head_annotate]
      · rwa [Expr.mark_annotate]
      · rwa [Expr.mark_annotate]
      · rwa [Expr.children_annotate]
  rw [Types, Types, admits]
  tauto

theorem mostGeneral_annotate (root : e.mark.ty = .any) :
    MostGeneral decls env (e.annotate w) .any t ↔ MostGeneral decls env e w t := by
  constructor
  · intro h
    obtain ⟨types, fits⟩ := (types_annotate root).mp h.types
    refine ⟨types, fits, fun r typesR fitsR => ?_⟩
    exact h.general r ((types_annotate root).mpr ⟨typesR, fitsR⟩) (Ty.any_admits _)
  · intro h
    refine ⟨(types_annotate root).mpr ⟨h.types, h.root⟩, Ty.any_admits _, fun r types _ => ?_⟩
    obtain ⟨typesR, fitsR⟩ := (types_annotate root).mp types
    exact h.general r typesR fitsR

theorem ordered_annotate (ordered : e.Ordered) : (e.annotate w).Ordered := by
  obtain ⟨ascend, below⟩ := Expr.ordered_iff.mp ordered
  have same : (e.annotate w).namesAscend = e.namesAscend :=
    Expr.namesAscend_eq (by rw [Expr.head_annotate]; exact .refl _)
  refine Expr.ordered_iff.mpr ⟨same ▸ ascend, ?_⟩
  rwa [Expr.children_annotate]

/-- Checking against a type and synthesis with that type written at the root find the same tree, or
neither finds any. -/
theorem check_eq_synthesize_annotate (decls : Decls) (env : Env) (e : Expr Mark) (w : Ty)
    (ordered : e.Ordered) (root : e.mark.ty = .any) :
    (e.check decls env w).toOption = ((e.annotate w).synthesize decls env).toOption := by
  apply Option.ext
  intro t
  rw [toOption_eq_some, toOption_eq_some, check_eq_ok_iff ordered,
    synthesize_eq_ok_iff (ordered_annotate ordered), mostGeneral_annotate root]

/-- A function of an option that gives back what it holds, asked for as a function of some option. -/
theorem orZero_directions : orZero.Ordered ∧ orZero.mark.ty = .any ∧
    ∃ t, orZero.check default .empty (.arrow [.option .any] .any) = .ok t ∧
      t.mark.ty = .arrow [.option .int] .int ∧
      (orZero.annotate (.arrow [.option .any] .any)).synthesize default .empty = .ok t := by
  have agree := check_eq_synthesize_annotate default .empty orZero (.arrow [.option .any] .any)
    (by decide) rfl
  have found : (orZero.check default .empty (.arrow [.option .any] .any)).toOption.map (·.mark.ty) =
      some (.arrow [.option .int] .int) := by decide +kernel
  obtain ⟨t, checked, ty⟩ := Option.map_eq_some_iff.mp found
  refine ⟨by decide, rfl, t, toOption_eq_some.mp checked, ty, ?_⟩
  rw [checked] at agree
  exact toOption_eq_some.mp agree.symm

end Directions

/-- The checker gives a tree that it has found back as it is, in both directions, and finds it again
when it is asked for the type that it found. -/
theorem synthesized_fixed (decls : Decls) (env : Env) (e t : Expr Mark) (ordered : e.Ordered)
    (found : e.synthesize decls env = .ok t) :
    t.synthesize decls env = .ok t ∧ t.check decls env t.mark.ty = .ok t ∧
      e.check decls env t.mark.ty = .ok t := by
  obtain ⟨types, _, general⟩ := (synthesize_eq_ok_iff ordered).mp found
  have again : t.Ordered := types.1.ordered ordered
  have own : Types decls env t t := ⟨.refl t, types.2⟩
  refine ⟨?_, ?_, ?_⟩
  · exact (synthesize_eq_ok_iff again).mpr ⟨own, Ty.any_admits _, fun r h _ => h.1⟩
  · exact (check_eq_ok_iff again).mpr ⟨own, .refl _, fun r h _ => h.1⟩
  · refine (check_eq_ok_iff ordered).mpr ⟨types, .refl _, fun r h _ => ?_⟩
    exact general r h (Ty.any_admits _)

theorem orZero_fixed : orZero.Ordered ∧ ∃ t, orZero.synthesize default .empty = .ok t ∧
    t ≠ orZero ∧ t.synthesize default .empty = .ok t ∧
    t.check default .empty (.arrow [.option .int] .int) = .ok t ∧
    orZero.check default .empty (.arrow [.option .int] .int) = .ok t := by
  have found : (orZero.synthesize default .empty).toOption.map (·.mark.ty) =
      some (.arrow [.option .int] .int) := by decide +kernel
  obtain ⟨t, synthesized, ty⟩ := Option.map_eq_some_iff.mp found
  have ok : orZero.synthesize default .empty = .ok t := toOption_eq_some.mp synthesized
  have fixed := synthesized_fixed default .empty orZero t (by decide) ok
  rw [ty] at fixed
  refine ⟨by decide, t, ok, ?_, fixed⟩
  rintro rfl
  cases ty

end Ordinance.Typing
