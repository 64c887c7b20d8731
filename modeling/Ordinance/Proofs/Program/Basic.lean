import Ordinance.Program
import Ordinance.Proofs.Expr.Instance

namespace Ordinance

variable {μ : Type}

def ScopeLet.binders (l : ScopeLet μ) : List Var := l.var :: l.expr.binders

def ScopeBody.binders (b : ScopeBody μ) : List Var :=
  b.inputVar :: (b.lets.flatMap ScopeLet.binders ++ b.result.binders)

namespace Item

/-- The variable by which later items know the item. -/
def var : Item μ → Var
  | definition d => d.var
  | scope s => s.var

/-- The variables that the item binds, for later items or in itself. -/
def binders : Item μ → List Var
  | definition d => d.var :: d.expr.binders
  | scope s => s.var :: s.body.binders

def exprs : Item μ → List (Expr μ)
  | definition d => [d.expr]
  | scope s => s.body.lets.map (·.expr) ++ [s.body.result]

/-- The types that are found for the item and its local definitions. -/
def types : Item μ → List Ty
  | definition d => [d.ty]
  | scope s => s.body.lets.map (·.ty)

end Item

def Program.binders (p : Program μ) : List Var := p.items.flatMap Item.binders

def Program.exprs (p : Program μ) : List (Expr μ) := p.items.flatMap Item.exprs

def Program.types (p : Program μ) : List Ty := p.items.flatMap Item.types

/-- The second is the first with its open types filled in. -/
structure ScopeLet.Admits (l k : ScopeLet Mark) : Prop where
  var : l.var = k.var
  role : l.role = k.role
  span : l.span = k.span
  ty : l.ty.Admits k.ty
  expr : l.expr.Admits k.expr

structure ScopeBody.Admits (b c : ScopeBody Mark) : Prop where
  inputVar : b.inputVar = c.inputVar
  input : b.input = c.input
  output : b.output = c.output
  lets : List.Forall₂ ScopeLet.Admits b.lets c.lets
  result : b.result.Admits c.result

def Item.Admits : Item Mark → Item Mark → Prop
  | definition d, definition e =>
      d.var = e.var ∧ d.span = e.span ∧ d.ty.Admits e.ty ∧ d.expr.Admits e.expr
  | scope s, scope r => s.name = r.name ∧ s.var = r.var ∧ s.span = r.span ∧ s.body.Admits r.body
  | _, _ => False

section Instance

theorem ScopeLet.Admits.antisymm {l k : ScopeLet Mark} (h : l.Admits k) (g : k.Admits l) : l = k := by
  obtain ⟨v, role, ty, e, span⟩ := l
  obtain ⟨w, role', ty', e', span'⟩ := k
  obtain ⟨rfl, rfl, rfl, hty, hexpr⟩ := h
  have sameTy : ty = ty' := hty.antisymm g.ty
  have sameExpr : e = e' := hexpr.antisymm g.expr
  rw [sameTy, sameExpr]

theorem ScopeBody.Admits.antisymm {b c : ScopeBody Mark} (h : b.Admits c) (g : c.Admits b) :
    b = c := by
  obtain ⟨v, input, output, ls, e⟩ := b
  obtain ⟨w, input', output', ks, e'⟩ := c
  obtain ⟨rfl, rfl, rfl, lets, result⟩ := h
  have sameLets : ls = ks :=
    forall₂_antisymm (fun _ _ _ => ScopeLet.Admits.antisymm) lets g.lets
  have sameResult : e = e' := result.antisymm g.result
  rw [sameLets, sameResult]

theorem Item.Admits.ordered {i j : Item Mark} (h : i.Admits j) (ordered : ∀ e ∈ i.exprs, e.Ordered) :
    ∀ e ∈ j.exprs, e.Ordered := by
  cases i with
  | definition d =>
    cases j with
    | definition d' =>
      exact List.forall_mem_singleton.mpr (h.2.2.2.ordered (List.forall_mem_singleton.mp ordered))
    | scope => cases h
  | scope s =>
    cases j with
    | definition => cases h
    | scope s' =>
      obtain ⟨lets, result⟩ := List.forall_mem_append.mp ordered
      obtain ⟨_, _, _, body⟩ := h
      refine List.forall_mem_append.mpr ⟨List.forall_mem_map.mpr ?_, ?_⟩
      · exact forall_of_forall₂ body.lets fun l hl k admits =>
          admits.expr.ordered (List.forall_mem_map.mp lets l hl)
      · exact List.forall_mem_singleton.mpr
          (body.result.ordered (List.forall_mem_singleton.mp result))

end Instance

namespace Expr

theorem Head.Admits.params_eq {e t : Expr Mark} (h : e.head.Admits t.head) :
    e.params = t.params := by
  cases e <;> cases t <;> simp_all [head, Head.Admits, params]

/-- Filling in types does not touch binders. -/
theorem Admits.binders_eq {e t : Expr Mark} (h : e.Admits t) : e.binders = t.binders := by
  induction e using Expr.induct generalizing t with
  | node e ih =>
    cases h with
    | node head _ _ parts =>
      rw [e.binders_eq, t.binders_eq, Head.Admits.params_eq head,
        flatMap_eq_of_forall₂ parts fun d hd c admits => ih d hd admits]

end Expr

theorem ScopeLet.Admits.binders_eq {l k : ScopeLet Mark} (h : l.Admits k) :
    l.binders = k.binders := by
  rw [ScopeLet.binders, ScopeLet.binders, h.var, h.expr.binders_eq]

theorem ScopeBody.Admits.binders_eq {b c : ScopeBody Mark} (h : b.Admits c) :
    b.binders = c.binders := by
  have lets : b.lets.flatMap ScopeLet.binders = c.lets.flatMap ScopeLet.binders :=
    flatMap_eq_of_forall₂ h.lets fun _ _ _ admits => admits.binders_eq
  rw [ScopeBody.binders, ScopeBody.binders, h.inputVar, lets, h.result.binders_eq]

theorem Item.Admits.binders_eq {i j : Item Mark} (h : i.Admits j) : i.binders = j.binders := by
  match i, j, h with
  | .definition d, .definition e, ⟨var, _, _, expr⟩ => simp [binders, var, expr.binders_eq]
  | .scope s, .scope r, ⟨_, var, _, body⟩ => simp [binders, var, body.binders_eq]

end Ordinance
