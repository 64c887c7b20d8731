import Ordinance.Proofs.Typing.Completeness.Check
import Ordinance.Proofs.Typing.Soundness.Check

namespace Ordinance.Typing

variable {decls : Decls} {env : Env} {Γ : Dict Var Ty} {s : Store} {φ : Class → Ty}
  {e : Expr Pending} {r : Expr Mark} {u : Ty}

/-- Binders that got their types from an open function type still admit what the function takes. -/
theorem binderTypes_admits {span : Span} {w : Ty} {tys us : List Ty}
    (binders : Ty.AdmitsAll tys us) (admits : w.Admits (.arrow us u)) :
    Ty.AdmitsAll (binderTypes ⟨span, w⟩ tys) us := by
  cases w with
  | arrow params result =>
    simp only [binderTypes]
    split
    · exact admits.1
    · exact binders
  | _ => exact binders

theorem head_finish (typed : HasTy Eq decls env Γ r u) (head : e.head.Admits r.head)
    (admits : (s.resolve e.mark.cls).Admits u) : (Pending.finish s e).head.Admits r.head := by
  cases e with
  | lam params tys body p =>
    cases typed with
    | lam count binders typed _ =>
      obtain ⟨rfl, tys⟩ : _ ∧ _ := head
      obtain rfl : _ = _ := List.forall₂_eq_eq_eq ▸ binders
      exact ⟨rfl, binderTypes_admits tys admits⟩
    | _ => cases head
  | _ => simpa [finish_eq, assign, Expr.retype, Expr.head, Function.comp_def] using head

/-- Reading the store back leaves open what its readings do not agree on. -/
theorem finish_admits (model : s.Model φ) (typed : HasTy Eq decls env Γ r u)
    (h : Records s φ e r) : (Pending.finish s e).Admits r := by
  induction e using Expr.induct generalizing r Γ u with
  | node e ih =>
    have admits : (s.resolve e.mark.cls).Admits u := (h.reads typed).2 ▸ model.resolve_admits _
    obtain ⟨head, span, mark, children⟩ := h
    obtain ⟨length, below⟩ := List.forall₂_iff_zip.mp children
    refine .node (head_finish typed head admits) ?_ ?_ ?_
    · rw [finish_eq, assign_mark, span]
    · rw [finish_eq, assign_mark, typed.fits_mark]
      exact admits
    · rw [finish_eq, assign_children, List.forall₂_map_left_iff]
      refine List.forall₂_iff_zip.mpr ⟨length, fun hx => ?_⟩
      obtain ⟨he, hr⟩ := List.of_mem_zip hx
      obtain ⟨Δ, w, typed⟩ := typed.child hr
      exact ih _ he typed (below hx)

/-- `r` is `e` with types for all its nodes and binders that satisfy the typing rules. -/
def Types (decls : Decls) (env : Env) (e r : Expr Mark) : Prop :=
  e.Admits r ∧ HasTy Eq decls env ∅ r r.mark.ty

/-- The checker finds a tree if there are any types for its nodes and binders, and then the tree is
the most general one: all such types are instances of those recorded in it. -/
theorem synthesize_principal (decls : Decls) (env : Env) (e : Expr Mark) :
    ((∃ r, Types decls env e r) → ∃ t, e.synthesize decls env = .ok t ∧
      ∀ r, Types decls env e r → t.Admits r) ∧
    ∀ x, e.synthesize decls env = .error x → ¬ ∃ r, Types decls env e r := by
  have found (r : Expr Mark) (types : Types decls env e r) :
      ∃ t, e.synthesize decls env = .ok t ∧ t.Admits r := by
    obtain ⟨admits, typed⟩ := types
    obtain ⟨e', s, ψ, run, ext, records⟩ :=
      elaborate_complete e typed admits (reads_empty false r.mark.ty)
    refine ⟨Pending.finish s e', ?_, finish_admits ext.model typed records⟩
    change Except.bind (elaborate decls env ∅ none e (.empty false)) _ = _
    rw [run]
    rfl
  constructor
  · rintro ⟨r, types⟩
    obtain ⟨t, ok, _⟩ := found r types
    refine ⟨t, ok, fun r types => ?_⟩
    obtain ⟨t', ok', admits⟩ := found r types
    rw [ok] at ok'
    cases ok'
    exact admits
  · rintro x failed ⟨r, types⟩
    obtain ⟨t, ok, _⟩ := found r types
    rw [failed] at ok
    cases ok

section Example

/-- `fun x => x` with no types given. -/
def identity : Expr Mark :=
  .lam [⟨0, "x"⟩] [.any] (.var ⟨0, "x"⟩ .blank) .blank

def identityAt (u : Ty) : Expr Mark :=
  .lam [⟨0, "x"⟩] [u] (.var ⟨0, "x"⟩ ⟨.synthetic, u⟩) ⟨.synthetic, .arrow [u] u⟩

/-- `fun x => x x` with no types given. -/
def selfApply : Expr Mark :=
  let m : Mark := .blank
  let x : Expr Mark := .var ⟨0, "x"⟩ m
  .lam [⟨0, "x"⟩] [.any] (.app x [x] m) m

theorem types_identity (u : Ty) : Types default .empty identity (identityAt u) := by
  constructor
  · have body : (Expr.var ⟨0, "x"⟩ .blank).Admits (.var ⟨0, "x"⟩ ⟨.synthetic, u⟩) :=
      .node rfl rfl (Ty.any_admits u) .nil
    exact .node ⟨rfl, Ty.any_admits u, trivial⟩ rfl (Ty.any_admits _) (.cons body .nil)
  · have bound : VarTy .empty (Dict.insertMany ∅ [(⟨0, "x"⟩, u)]) ⟨0, "x"⟩ u := by
      simp [VarTy, Dict.insertMany, Dict.get?_insert]
    exact .lam rfl (.cons rfl .nil) (.var bound rfl) rfl

/-- The type found for `identity` has all its types as instances; `selfApply` has none. -/
theorem identity_principal :
    (∃ t, identity.synthesize default .empty = .ok t ∧ t.mark.ty = .arrow [.any] .any ∧
      ∀ u, t.Admits (identityAt u)) ∧ ¬ ∃ r, Types default .empty selfApply r := by
  constructor
  · have ty : (identity.synthesize default .empty).toOption.map (·.mark.ty) =
        some (.arrow [.any] .any) := by decide +kernel
    obtain ⟨t, ok, all⟩ := (synthesize_principal default .empty identity).1 ⟨_, types_identity .int⟩
    refine ⟨t, ok, ?_, fun u => all _ (types_identity u)⟩
    simpa [ok, Except.toOption] using ty
  · have failed : (selfApply.synthesize default .empty).isOk = false := by decide +kernel
    cases found : selfApply.synthesize default .empty with
    | ok t => simp [found, Except.isOk, Except.toBool] at failed
    | error x => exact (synthesize_principal default .empty selfApply).2 x found

end Example

end Ordinance.Typing
