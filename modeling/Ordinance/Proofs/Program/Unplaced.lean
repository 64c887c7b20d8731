import Ordinance.Proofs.Expr.Basic
import Ordinance.Program

namespace Ordinance

def Mark.unplaced (m : Mark) : Mark := { m with span := .synthetic }

namespace Expr

variable {μ ν : Type} {f : μ → ν}

/-- Replaces every mark and leaves the types of binders. -/
def mapMarks (f : μ → ν) (e : Expr μ) : Expr ν := e.retype f fun _ tys => tys

section MapMarks

@[simp] theorem mark_mapMarks (e : Expr μ) : (e.mapMarks f).mark = f e.mark := mark_retype _ _ e

@[simp] theorem head_mapMarks (e : Expr μ) : (e.mapMarks f).head = e.head := by
  cases e <;> simp [mapMarks, retype, head, Function.comp_def]

theorem mapMarks_tuple (es : List (Expr μ)) (m : μ) :
    (tuple es m).mapMarks f = tuple (es.map (mapMarks f)) (f m) := by
  simp [mapMarks, retype]

theorem mapMarks_array (es : List (Expr μ)) (m : μ) :
    (array es m).mapMarks f = array (es.map (mapMarks f)) (f m) := by
  simp [mapMarks, retype]

theorem mapMarks_app (g : Expr μ) (es : List (Expr μ)) (m : μ) :
    (app g es m).mapMarks f = app (g.mapMarks f) (es.map (mapMarks f)) (f m) := by
  simp [mapMarks, retype]

theorem mapMarks_default (es : List (Expr μ)) (just cons : Expr μ) (m : μ) :
    (default es just cons m).mapMarks f =
      default (es.map (mapMarks f)) (just.mapMarks f) (cons.mapMarks f) (f m) := by
  simp [mapMarks, retype]

theorem mapMarks_record (struct : String) (fields : List (String × Expr μ)) (m : μ) :
    (record struct fields m).mapMarks f =
      record struct (fields.map fun x => (x.1, x.2.mapMarks f)) (f m) := by
  simp [mapMarks, retype]

theorem mapMarks_switch (e : Expr μ) (enum : String) (cases : List (String × Expr μ)) (m : μ) :
    (switch e enum cases m).mapMarks f =
      switch (e.mapMarks f) enum (cases.map fun x => (x.1, x.2.mapMarks f)) (f m) := by
  simp [mapMarks, retype]

theorem size_mapMarks (e : Expr μ) : (e.mapMarks f).size = e.size := by
  induction e using induct with
  | node e ih =>
    have parts : (e.mapMarks f).children.map size = e.children.map size := by
      rw [mapMarks, children_retype, List.map_map]
      exact List.map_congr_left ih
    rw [size, fold_eq, size, fold_eq]
    exact congrArg (List.foldr (· + ·) 1) parts

/-- Marks may be replaced before or after the tree is given other types. -/
theorem retype_mapMarks {μ' ν' : Type} {p : μ → μ'} {q : ν → ν'} {f' : μ' → ν'}
    {g : ν → List Ty → List Ty} {g' : ν' → List Ty → List Ty} (marks : ∀ m, f' (p m) = q (f m))
    (tys : ∀ m ts, g' (q m) ts = g m ts) (e : Expr μ) :
    (e.mapMarks p).retype f' g' = (e.retype f g).mapMarks q := by
  induction e using induct with
  | node e ih =>
    cases e with
    | record struct fields m =>
      simp only [mapMarks, retype, retypeNamed_eq_map, List.map_map, marks]
      refine congrArg (record struct · _) (List.map_congr_left fun x hx => ?_)
      exact congrArg (x.1, ·) (ih x.2 (List.mem_map_of_mem hx))
    | switch e enum cases m =>
      obtain ⟨he, hcases⟩ := List.forall_mem_cons.mp ih
      simp only [mapMarks, retype, retypeNamed_eq_map, List.map_map, marks]
      refine congrArg₂ (switch · enum · _) he (List.map_congr_left fun x hx => ?_)
      exact congrArg (x.1, ·) (hcases x.2 (List.mem_map_of_mem hx))
    | _ => simp_all [mapMarks, retype, children]

end MapMarks

/-- The expression without places. -/
def unplaced (e : Expr Mark) : Expr Mark := e.mapMarks Mark.unplaced

theorem unplaced_app (f : Expr Mark) (args : List (Expr Mark)) (m : Mark) :
    (app f args m).unplaced = app f.unplaced (args.map unplaced) m.unplaced :=
  mapMarks_app f args m

end Expr

def ScopeLet.unplaced (l : ScopeLet Mark) : ScopeLet Mark :=
  { l with expr := l.expr.unplaced, span := .synthetic }

def ScopeBody.unplaced (b : ScopeBody Mark) : ScopeBody Mark :=
  { b with lets := b.lets.map ScopeLet.unplaced, result := b.result.unplaced }

def Definition.unplaced (d : Definition Mark) : Definition Mark :=
  { d with expr := d.expr.unplaced, span := .synthetic }

def Scope.unplaced (s : Scope Mark) : Scope Mark :=
  { s with body := s.body.unplaced, span := .synthetic }

def Item.unplaced : Item Mark → Item Mark
  | definition d => definition d.unplaced
  | scope s => scope s.unplaced

/-- The program without places: two that differ in nothing else have the same. -/
def Program.unplaced (p : Program Mark) : Program Mark :=
  { p with items := p.items.map Item.unplaced }

theorem Item.size_unplaced (i : Item Mark) : i.unplaced.size = i.size := by
  cases i with
  | definition d => exact d.expr.size_mapMarks
  | scope s =>
    have result : s.body.result.unplaced.size = s.body.result.size := s.body.result.size_mapMarks
    simp only [unplaced, size, Scope.unplaced, ScopeBody.unplaced, List.foldr_map, result]
    exact congrArg (List.foldr · _ _) (funext fun l => congrArg (· + ·) l.expr.size_mapMarks)

theorem Program.size_unplaced (p : Program Mark) : p.unplaced.size = p.size := by
  simp only [unplaced, size, List.foldr_map, Item.size_unplaced]

end Ordinance
