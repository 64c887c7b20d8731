import Ordinance.Proofs.Store.Reachable

namespace Ordinance.Store

/-- The store after some allocations and unifications, and the cells that the former made, in
order. -/
inductive Built : Store → List Cell → Prop
  | empty (tracing : Bool) : Built (empty tracing) []
  | alloc {s : Store} {made : List Cell} (shape : Shape Class) (span : Span) : Built s made →
      (∀ p ∈ shape.parts, p < s.size) → Built (alloc shape span s).2 (made ++ [⟨shape, span⟩])
  | unify {s : Store} {made : List Cell} {a b : Class} : Built s made → a < s.size → b < s.size →
      Built (s.unify a b).2 made

/-- The members of a class were made alike, and the class still says so. -/
structure Consistent (s : Store) (made : List Cell) : Prop where
  length_eq : made.length = s.size
  /-- The cell of a class is that of a member. -/
  cell_made {v : Class} : v < s.size → ∃ u, s.find u = s.find v ∧ made[u]? = some (s.cell v)
  /-- A class is open only if its members were. -/
  any_made {u v : Class} {c : Cell} : s.shape v = .any → s.find u = s.find v → made[u]? = some c →
    c.shape = .any
  /-- Members that were made with a shape have the same one, over parts of the same classes. -/
  agree {u v : Class} {c d : Cell} : s.find u = s.find v → made[u]? = some c → made[v]? = some d →
    c.shape ≠ .any → d.shape ≠ .any → c.shape.map s.find = d.shape.map s.find

variable {s t : Store} {made : List Cell} {a b : Class}

theorem Reachable.built (h : s.Reachable) : ∃ made, s.Built made := by
  refine h.induct (P := fun s => ∃ made, s.Built made) ?_ (fun tracing => ⟨[], .empty tracing⟩) ?_
  · rintro s shape span ⟨made, built⟩ parts
    exact ⟨_, .alloc shape span built parts⟩
  · rintro s a b ⟨made, built⟩ ha hb
    exact ⟨made, .unify built ha hb⟩

/-- Cells are kept as they were made, and one that has a shape has that of its class. -/
structure Kept (s : Store) (made : List Cell) : Prop where
  wf : s.Wf
  cells : s.cells.toList = made
  shape {v : Class} {c : Cell} : made[v]? = some c → c.shape ≠ .any →
    c.shape.map s.find = (s.shape v).map s.find

namespace Kept

theorem empty (tracing : Bool) : (Store.empty tracing).Kept [] := ⟨empty_wf tracing, rfl, by simp⟩

/-- More is known about classes, not about cells. -/
theorem of_le (h : s.Kept made) (ht : t.Wf) (le : s.Le t) (cells : t.cells = s.cells) :
    t.Kept made where
  wf := ht
  cells := cells ▸ h.cells
  shape {v c} hc known := by
    have same : c.shape.map s.find = (s.shape v).map s.find := h.shape hc known
    have known' : s.shape v ≠ .any := by
      intro any
      rw [any, Shape.map, Shape.map_eq_any] at same
      exact known same
    have through : t.find ∘ s.find = t.find := funext fun u => le.find (h.wf.find_find u)
    calc c.shape.map t.find
        = (c.shape.map s.find).map t.find := by rw [Shape.map_map, through]
      _ = (s.shape v).map t.find := by rw [same, Shape.map_map, through]
      _ = (t.shape v).map t.find := le.shape known'

theorem alloc (h : s.Kept made) {shape : Shape Class} {span : Span}
    (parts : ∀ p ∈ shape.parts, p < s.size) :
    (Store.alloc shape span s).2.Kept (made ++ [⟨shape, span⟩]) where
  wf := h.wf.alloc parts
  cells := by simp [Store.alloc, h.cells]
  shape {v c} hc known := by
    have find : (Store.alloc shape span s).2.find = s.find := funext h.wf.find_alloc
    have length : made.length = s.size := by simp [← h.cells, size]
    rw [find, h.wf.shape_alloc]
    rcases Nat.lt_trichotomy v s.size with lt | rfl | gt
    · rw [List.getElem?_append_left (by omega)] at hc
      rw [if_neg (Nat.ne_of_lt lt)]
      exact h.shape hc known
    · rw [← length, List.getElem?_concat_length] at hc
      cases hc
      rw [if_pos rfl]
    · rw [List.getElem?_eq_none (by simp; omega)] at hc
      cases hc

theorem unify (h : s.Kept made) (ha : a < s.size) (hb : b < s.size) :
    (s.unify a b).2.Kept made := by
  rcases unify_cases a b s with ⟨t, eq, run⟩ | ⟨m, t, _, _, eq, same, _⟩
  · rw [eq]
    have unified := unifyWithin_ok h.wf ha hb run
    exact h.of_le unified.wf unified.le unified.cells
  · rw [eq]
    exact h.of_le (same.wf h.wf) same.le same.cells

theorem consistent (h : s.Kept made) : s.Consistent made where
  length_eq := by simp [← h.cells, size]
  cell_made {v} hv := by
    refine ⟨s.find v, h.wf.find_find v, ?_⟩
    have lt : s.find v < s.cells.size := h.wf.find_lt hv
    simp [← h.cells, cell, lt]
  any_made {u v c} any same hc := by
    by_contra known
    have eq : c.shape.map s.find = (s.shape v).map s.find :=
      h.wf.shape_congr same ▸ h.shape hc known
    rw [any, Shape.map, Shape.map_eq_any] at eq
    exact known eq
  agree {u v c d} same hc hd hu hv := by
    rw [h.shape hc hu, h.shape hd hv, h.wf.shape_congr same]

end Kept

theorem Built.kept (h : s.Built made) : s.Kept made := by
  induction h with
  | empty tracing => exact .empty tracing
  | alloc shape span _ parts ih => exact ih.alloc parts
  | unify _ ha hb ih => exact ih.unify ha hb

/-- However a store has come about, its classes are consistent with the cells that were made. -/
theorem reachable_consistent (h : s.Reachable) :
    (∃ made, s.Built made) ∧ ∀ made, s.Built made → s.Consistent made :=
  ⟨h.built, fun _ built => built.kept.consistent⟩

/-- The first hole goes by the cell of the lists that it has become. -/
theorem listMaker_consistent : listMaker.Reachable ∧ ∃ made, listMaker.Built made ∧
    listMaker.Consistent made ∧
      ∃ u, listMaker.find u = listMaker.find 0 ∧ made[u]? = some ⟨.array 1, .synthetic⟩ := by
  obtain ⟨⟨made, built⟩, consistent⟩ := reachable_consistent listMaker_reachable
  have cell : listMaker.cell 0 = ⟨.array 1, .synthetic⟩ := by decide +kernel
  have made_by := (consistent made built).cell_made (v := 0) (by decide +kernel)
  rw [cell] at made_by
  exact ⟨listMaker_reachable, made, built, consistent made built, made_by⟩

end Ordinance.Store
