import Ordinance.Proofs.Typing.Program

namespace Ordinance

namespace Expr

/-- The expression without types: of a mark the place is left, and every binder is open. -/
def untyped (e : Expr Mark) : Expr Span := e.retype Mark.span fun _ tys => tys.map fun _ => .any

def Head.untyped : Head → Head
  | .lam params tys => .lam params (tys.map fun _ => .any)
  | h => h

/-- The types that are written at the binders of the node itself. -/
def paramTys {μ : Type} : Expr μ → List Ty
  | lam _ tys _ _ => tys
  | _ => []

/-- The types that are written at binders, from the root down. -/
def binderTys {μ : Type} (e : Expr μ) : List Ty := e.fold fun e below => e.paramTys ++ below.flatten

theorem binderTys_eq {μ : Type} (e : Expr μ) :
    e.binderTys = e.paramTys ++ e.children.flatMap binderTys := by
  rw [binderTys, fold_eq]
  rfl

@[simp] theorem head_untyped (e : Expr Mark) : e.untyped.head = e.head.untyped := by
  cases e <;> simp [untyped, retype, head, Head.untyped, Function.comp_def]

@[simp] theorem mark_untyped (e : Expr Mark) : e.untyped.mark = e.mark.span := mark_retype _ _ e

@[simp] theorem children_untyped (e : Expr Mark) : e.untyped.children = e.children.map untyped :=
  children_retype _ _ e

theorem Head.Admits.untyped_eq {h k : Head} (admits : h.Admits k) : h.untyped = k.untyped := by
  cases h with
  | lam params tys =>
    cases k with
    | lam params' tys' =>
      obtain ⟨rfl, tys⟩ := admits
      simp only [Head.untyped, List.map_const', tys.length_eq]
    | _ => cases admits
  | _ =>
    obtain rfl : _ = k := admits
    rfl

theorem Head.Admits.paramTys {e t : Expr Mark} (h : e.head.Admits t.head) :
    List.Forall₂ Ty.Admits e.paramTys t.paramTys := by
  cases e with
  | lam params tys body m =>
    cases t with
    | lam params' tys' body' m' => exact Ty.admitsAll_iff.mp h.2
    | _ => cases h
  | _ =>
    cases t with
    | lam => cases h
    | _ => exact .nil

/-- Trees of which one fills in the types of the other are the same without types. -/
theorem Admits.untyped_eq {e t : Expr Mark} (h : e.Admits t) : e.untyped = t.untyped := by
  induction e using Expr.induct generalizing t with
  | node e ih =>
    obtain ⟨head, span, _, parts⟩ := h
    have below : e.children.map untyped = t.children.map untyped :=
      map_eq_iff_forall₂.mpr (forall₂_imp_mem parts fun d hd c admits => ih d hd admits)
    apply eq_of_parts
    · rw [head_untyped, head_untyped, head.untyped_eq]
    · rw [mark_untyped, mark_untyped, span]
    · rw [children_untyped, children_untyped, below]

theorem Admits.binderTys {e t : Expr Mark} (h : e.Admits t) :
    List.Forall₂ Ty.Admits e.binderTys t.binderTys := by
  induction e using Expr.induct generalizing t with
  | node e ih =>
    obtain ⟨head, _, _, parts⟩ := h
    have below : List.Forall₂ Ty.Admits (e.children.flatMap Expr.binderTys)
        (t.children.flatMap Expr.binderTys) := by
      refine List.rel_flatMap (forall₂_imp_mem parts fun d hd c admits => ih d hd admits) ?_
      exact fun d c admits => admits
    rw [binderTys_eq, binderTys_eq]
    exact List.rel_append head.paramTys below

end Expr

def ScopeLet.untyped (l : ScopeLet Mark) : ScopeLet Span :=
  ⟨l.var, l.role, .any, l.expr.untyped, l.span⟩

def ScopeBody.untyped (b : ScopeBody Mark) : ScopeBody Span :=
  ⟨b.inputVar, b.input, b.output, b.lets.map ScopeLet.untyped, b.result.untyped⟩

def Item.untyped : Item Mark → Item Span
  | definition d => .definition ⟨d.var, .any, d.expr.untyped, d.span⟩
  | scope s => .scope ⟨s.name, s.var, s.body.untyped, s.span⟩

/-- The program without types: two that differ in nothing else have the same. -/
def Program.untyped (p : Program Mark) : Program Span := ⟨p.decls, p.items.map Item.untyped⟩

section WrittenTys

variable {μ : Type}

def ScopeLet.writtenTys (l : ScopeLet μ) : List Ty := l.ty :: l.expr.binderTys

/-- The types of the item, of its local definitions and of all binders in it. -/
def Item.writtenTys : Item μ → List Ty
  | definition d => d.ty :: d.expr.binderTys
  | scope s => s.body.lets.flatMap ScopeLet.writtenTys ++ s.body.result.binderTys

def Program.writtenTys (p : Program μ) : List Ty := p.items.flatMap Item.writtenTys

end WrittenTys

theorem ScopeLet.Admits.untyped_eq {l k : ScopeLet Mark} (h : l.Admits k) :
    l.untyped = k.untyped := by
  rw [ScopeLet.untyped, ScopeLet.untyped, h.var, h.role, h.expr.untyped_eq, h.span]

theorem ScopeBody.Admits.untyped_eq {b c : ScopeBody Mark} (h : b.Admits c) :
    b.untyped = c.untyped := by
  have lets : b.lets.map ScopeLet.untyped = c.lets.map ScopeLet.untyped :=
    map_eq_iff_forall₂.mpr (h.lets.imp fun _ _ admits => admits.untyped_eq)
  rw [ScopeBody.untyped, ScopeBody.untyped, h.inputVar, h.input, h.output, lets,
    h.result.untyped_eq]

theorem Item.Admits.untyped_eq {i j : Item Mark} (h : i.Admits j) : i.untyped = j.untyped := by
  cases i with
  | definition d =>
    cases j with
    | definition e =>
      obtain ⟨var, span, _, expr⟩ := h
      rw [Item.untyped, Item.untyped, var, span, expr.untyped_eq]
    | scope => cases h
  | scope s =>
    cases j with
    | definition => cases h
    | scope r =>
      obtain ⟨name, var, span, body⟩ := h
      rw [Item.untyped, Item.untyped, name, var, span, body.untyped_eq]

theorem Item.Admits.writtenTys {i j : Item Mark} (h : i.Admits j) :
    List.Forall₂ Ty.Admits i.writtenTys j.writtenTys := by
  cases i with
  | definition d =>
    cases j with
    | definition e =>
      obtain ⟨_, _, ty, expr⟩ := h
      exact .cons ty expr.binderTys
    | scope => cases h
  | scope s =>
    cases j with
    | definition => cases h
    | scope r =>
      obtain ⟨_, _, _, body⟩ := h
      have lets : List.Forall₂ Ty.Admits (s.body.lets.flatMap ScopeLet.writtenTys)
          (r.body.lets.flatMap ScopeLet.writtenTys) := by
        refine List.rel_flatMap body.lets ?_
        intro l k admits
        exact .cons admits.ty admits.expr.binderTys
      exact List.rel_append lets body.result.binderTys

namespace Typing

/-- The checker only fills in types: without them the program that it returns is the program that it
was given, with the same declarations, items, expressions and places, and every type written in
that program is an instance of the one that stood there. -/
theorem checked_untyped (p : Program Mark) (tracing : Bool) (c : CheckedProgram)
    (ordered : ∀ e ∈ p.exprs, e.Ordered) (checked : p.check tracing = .ok c) :
    c.program.untyped = p.untyped ∧
      List.Forall₂ Ty.Admits p.writtenTys c.program.writtenTys := by
  obtain ⟨decls, _, items⟩ := program_typed ordered checked
  constructor
  · have same : p.items.map Item.untyped = c.program.items.map Item.untyped :=
      map_eq_iff_forall₂.mpr (items.imp fun _ _ admits => admits.untyped_eq)
    rw [Program.untyped, Program.untyped, decls, same]
  · refine List.rel_flatMap items ?_
    intro i j admits
    exact admits.writtenTys

section Example

/-- A function that adds one, and a scope that applies it to the amount of a wage; no type is
written. -/
def increase : Program Mark where
  decls := { structs := .ofList [("Wage", .ofList [("amount", .int)])], enums := ∅ }
  items :=
    let m : Mark := .blank
    let sum : Expr Mark := .app (.op (.add .int) m) [.var ⟨1, "n"⟩ m, .lit (.int 1) m] m
    let body : ScopeBody Mark :=
      { inputVar := ⟨3, "in"⟩, input := "Wage", output := "Wage"
        lets :=
          [⟨⟨4, "old"⟩, .input, .any, .field (.var ⟨3, "in"⟩ m) "Wage" "amount" m, m.span⟩,
            ⟨⟨5, "new"⟩, .definition, .any, .app (.var ⟨0, "next"⟩ m) [.var ⟨4, "old"⟩ m] m,
              m.span⟩]
        result := .record "Wage" [("amount", .var ⟨5, "new"⟩ m)] m }
    [.definition ⟨⟨0, "next"⟩, .any, .lam [⟨1, "n"⟩] [.any] sum m, m.span⟩,
      .scope ⟨"Increase", ⟨2, "increase"⟩, body, m.span⟩]

theorem increase_untyped : (∀ e ∈ increase.exprs, e.Ordered) ∧
    increase.writtenTys = [.any, .any, .any, .any] ∧ ∃ c, increase.check false = .ok c ∧
      c.program.writtenTys = [.arrow [.int] .int, .int, .int, .int] ∧
      c.program.untyped = increase.untyped ∧
      List.Forall₂ Ty.Admits increase.writtenTys c.program.writtenTys := by
  have ordered : ∀ e ∈ increase.exprs, e.Ordered := by decide +kernel
  have found : (increase.check false).toOption.map (·.program.writtenTys) =
      some [.arrow [.int] .int, .int, .int, .int] := by decide +kernel
  obtain ⟨c, checked, types⟩ := Option.map_eq_some_iff.mp found
  have checked := toOption_eq_some.mp checked
  obtain ⟨same, filled⟩ := checked_untyped increase false c ordered checked
  exact ⟨ordered, rfl, c, checked, types, same, filled⟩

end Example

end Typing

end Ordinance
