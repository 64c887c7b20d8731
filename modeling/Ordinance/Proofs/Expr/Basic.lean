import Mathlib.Data.List.Forall2
import Ordinance.Expr.Traversal
import Ordinance.Proofs.Ty.Instance

namespace Ordinance.Expr

variable {μ ν : Type}

/-- Induction over expressions, with a hypothesis for every direct part. -/
theorem induct {P : Expr μ → Prop} (node : ∀ e, (∀ d ∈ e.children, P d) → P e) (e : Expr μ) :
    P e :=
  @Expr.rec μ P (fun es => ∀ e ∈ es, P e) (fun fs => ∀ f ∈ fs, P f.2) (fun f => P f.2)
    (fun _ _ => node _ (by simp [children]))
    (fun _ _ => node _ (by simp [children]))
    (fun _ _ h => node _ (by simpa [children] using h))
    (fun _ _ _ _ h => node _ (by simpa [children] using h))
    (fun _ _ _ h => node _ (List.forall_mem_map.mpr h))
    (fun _ _ _ _ h => node _ (by simpa [children] using h))
    (fun _ _ _ _ h => node _ (by simpa [children] using h))
    (fun _ _ _ _ h hs => node _ (List.forall_mem_cons.mpr ⟨h, List.forall_mem_map.mpr hs⟩))
    (fun _ _ => node _ (by simp [children]))
    (fun _ _ _ h hs => node _ (by simpa [children] using ⟨h, hs⟩))
    (fun _ _ _ _ h => node _ (by simpa [children] using h))
    (fun _ _ _ _ hs hj hc => node _ (by
      intro d hd
      rcases List.mem_append.mp hd with hd | hd
      · exact hs d hd
      · rcases List.mem_pair.mp hd with rfl | rfl
        · exact hj
        · exact hc))
    (fun _ _ => node _ (by simp [children]))
    (fun _ _ _ _ hb hh => node _ (by simpa [children] using ⟨hb, hh⟩))
    (fun _ _ h => node _ (by simpa [children] using h))
    (fun _ _ h => node _ (by simpa [children] using h))
    (fun _ _ _ _ hc hy hn => node _ (by simpa [children] using ⟨hc, hy, hn⟩))
    (fun _ _ h => node _ (by simpa [children] using h))
    (fun _ _ => node _ (by simp [children]))
    (by simp) (fun _ _ h hs => List.forall_mem_cons.mpr ⟨h, hs⟩)
    (by simp) (fun _ _ h hs => List.forall_mem_cons.mpr ⟨h, hs⟩)
    (fun _ _ h => h) e

/-- The same with hypotheses for the parts of the parts as well. -/
theorem inductTwo {P : Expr μ → Prop}
    (node : ∀ e, (∀ d ∈ e.children, P d) → (∀ d ∈ e.children, ∀ c ∈ d.children, P c) → P e)
    (e : Expr μ) : P e := by
  have both : P e ∧ ∀ d ∈ e.children, P d := by
    induction e using induct with
    | node e ih => exact ⟨node e (fun d hd => (ih d hd).1) fun d hd => (ih d hd).2,
        fun d hd => (ih d hd).1⟩
  exact both.1

/-- Whether all nodes pass. -/
def all (p : Expr μ → Bool) (e : Expr μ) : Bool := e.fold fun e below => p e && below.all id

theorem all_iff {p : Expr μ → Bool} {e : Expr μ} :
    e.all p = true ↔ p e = true ∧ ∀ d ∈ e.children, d.all p = true := by
  rw [all, fold_eq]
  simp [all, List.all_map]

theorem all_and {p q : Expr μ → Bool} {e : Expr μ} (hp : e.all p = true) (hq : e.all q = true) :
    (e.all fun e => p e && q e) = true := by
  induction e using induct with
  | node e ih =>
    obtain ⟨hp, hps⟩ := all_iff.mp hp
    obtain ⟨hq, hqs⟩ := all_iff.mp hq
    refine all_iff.mpr ⟨by simp [hp, hq], fun d hd => ?_⟩
    exact ih d hd (hps d hd) (hqs d hd)

/-- The names of fields and cases are in ascending order, so none stands twice. -/
def namesAscend : Expr μ → Bool
  | record _ fields _ => decide ((fields.map (·.1)).Pairwise fun a b => compare a b = .lt)
  | switch _ _ cases _ => decide ((cases.map (·.1)).Pairwise fun a b => compare a b = .lt)
  | _ => true

/-- The order that fields and cases are listed in holds throughout the expression. -/
def Ordered (e : Expr μ) : Prop := e.all namesAscend = true

instance (e : Expr μ) : Decidable e.Ordered := inferInstanceAs (Decidable (_ = true))

theorem ordered_iff {e : Expr μ} :
    e.Ordered ↔ e.namesAscend = true ∧ ∀ d ∈ e.children, d.Ordered := all_iff

/-- The variables that the node itself binds. -/
def params : Expr μ → List Var
  | lam ps _ _ _ => ps
  | _ => []

/-- All variables that are bound in the expression. -/
def binders (e : Expr μ) : List Var := e.fold fun e below => e.params ++ below.flatten

theorem binders_eq (e : Expr μ) : e.binders = e.params ++ e.children.flatMap binders := by
  rw [binders, fold_eq]
  rfl

section Size

/-- The number of nodes of all the expressions. -/
def sizes (es : List (Expr μ)) : Nat := es.foldr (fun e n => e.size + n) 0

@[simp] theorem sizes_nil : sizes ([] : List (Expr μ)) = 0 := rfl

@[simp] theorem sizes_cons (e : Expr μ) (es : List (Expr μ)) :
    sizes (e :: es) = e.size + sizes es := rfl

@[simp] theorem sizes_append (es ds : List (Expr μ)) : sizes (es ++ ds) = sizes es + sizes ds := by
  induction es with
  | nil => simp
  | cons e es ih => simp [ih, Nat.add_assoc]

/-- A node counts for one. -/
theorem size_eq (e : Expr μ) : e.size = 1 + sizes e.children := by
  have each (es : List (Expr μ)) :
      (es.map (fold fun _ ns => ns.foldr (· + ·) 1)).foldr (· + ·) 1 = 1 + sizes es := by
    induction es with
    | nil => rfl
    | cons e es ih =>
      rw [List.map_cons, List.foldr_cons, ih, sizes_cons, Nat.add_left_comm]
      rfl
  rw [size, fold_eq]
  exact each e.children

end Size

section Retype

variable (f : μ → ν) (g : ν → List Ty → List Ty)

@[simp] theorem retypeAll_eq_map (es : List (Expr μ)) : retypeAll f g es = es.map (retype f g) := by
  induction es with
  | nil => rfl
  | cons e es ih => rw [retypeAll, ih, List.map_cons]

@[simp] theorem retypeNamed_eq_map (fs : List (String × Expr μ)) :
    retypeNamed f g fs = fs.map fun x => (x.1, retype f g x.2) := by
  induction fs with
  | nil => rfl
  | cons x fs ih => rw [retypeNamed, ih, List.map_cons]

@[simp] theorem mark_retype (e : Expr μ) : (e.retype f g).mark = f e.mark := by
  cases e <;> rfl

@[simp] theorem children_retype (e : Expr μ) :
    (e.retype f g).children = e.children.map (retype f g) := by
  cases e <;> simp [retype, children, Function.comp_def]

end Retype

/-- The second head is the first with the open binder types filled in. -/
def Head.Admits : Head → Head → Prop
  | .lam ps ts, .lam qs us => ps = qs ∧ Ty.AdmitsAll ts us
  | h, k => h = k

/-- The second tree is the first with its open types filled in. -/
inductive Admits : Expr Mark → Expr Mark → Prop
  | node {e t : Expr Mark} : e.head.Admits t.head → e.mark.span = t.mark.span →
      e.mark.ty.Admits t.mark.ty → List.Forall₂ Admits e.children t.children → Admits e t

end Ordinance.Expr
