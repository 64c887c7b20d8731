import Ordinance.Proofs.Program.Basic

namespace Ordinance

namespace Expr

variable {μ : Type}

/-- The variable that the node itself refers to, if it is one. -/
def named : Expr μ → List Var
  | var v _ => [v]
  | _ => []

/-- All variables that the expression refers to. -/
def vars (e : Expr μ) : List Var := e.fold fun e below => e.named ++ below.flatten

/-- Those of them that it refers to outside of the functions that bind them. -/
def free (e : Expr μ) : List Var :=
  e.fold fun e below => e.named ++ below.flatten.filter (· ∉ e.params)

theorem vars_eq (e : Expr μ) : e.vars = e.named ++ e.children.flatMap vars := by
  rw [vars, fold_eq]
  rfl

theorem free_eq (e : Expr μ) :
    e.free = e.named ++ (e.children.flatMap free).filter (· ∉ e.params) := by
  rw [free, fold_eq]
  rfl

theorem mem_free_iff {e : Expr μ} {x : Var} :
    x ∈ e.free ↔ x ∈ e.named ∨ (∃ d ∈ e.children, x ∈ d.free) ∧ x ∉ e.params := by
  rw [free_eq, List.mem_append, List.mem_filter, List.mem_flatMap, decide_eq_true_iff]

theorem named_subset (e : Expr μ) : e.named ⊆ e.vars := by
  rw [vars_eq]
  exact List.subset_append_left _ _

theorem vars_subset {e d : Expr μ} (h : d ∈ e.children) : d.vars ⊆ e.vars := by
  intro x hx
  rw [vars_eq e]
  exact List.mem_append_right _ (List.mem_flatMap.mpr ⟨d, h, hx⟩)

/-- What an expression refers to is bound in it or free. -/
theorem mem_free_or_mem_binders {e : Expr μ} {x : Var} (h : x ∈ e.vars) :
    x ∈ e.free ∨ x ∈ e.binders := by
  induction e using induct with
  | node e ih =>
    rw [vars_eq] at h
    rw [mem_free_iff, binders_eq]
    rcases List.mem_append.mp h with here | below
    · exact .inl (.inl here)
    · obtain ⟨d, hd, hx⟩ := List.mem_flatMap.mp below
      by_cases bound : x ∈ e.params
      · exact .inr (List.mem_append_left _ bound)
      · rcases ih d hd hx with free | binder
        · exact .inl (.inr ⟨⟨d, hd, free⟩, bound⟩)
        · exact .inr (List.mem_append_right _ (List.mem_flatMap.mpr ⟨d, hd, binder⟩))

end Expr

variable {μ : Type}

/-- The local definitions refer to what has been seen, each to those before it as well, and the
result to all of them. -/
def ScopeBody.LetsScoped : List Var → List (ScopeLet μ) → Expr μ → Prop
  | seen, [], result => result.free ⊆ seen
  | seen, l :: ls, result => l.expr.free ⊆ seen ∧ LetsScoped (l.var :: seen) ls result

def ScopeBody.Scoped (seen : List Var) (b : ScopeBody μ) : Prop :=
  LetsScoped (b.inputVar :: seen) b.lets b.result

namespace Item

def Scoped (seen : List Var) : Item μ → Prop
  | definition d => d.expr.free ⊆ seen
  | scope s => s.body.Scoped seen

/-- Each item refers to what has been seen and to the items before it. -/
def AllScoped : List Var → List (Item μ) → Prop
  | _, [] => True
  | seen, i :: is => i.Scoped seen ∧ AllScoped (i.var :: seen) is

end Item

/-- Every variable that the program refers to is bound where it does: by an earlier item, by the
input or an earlier local definition of the scope it is in, or by a function around it. -/
def Program.Scoped (p : Program μ) : Prop := Item.AllScoped [] p.items

end Ordinance
