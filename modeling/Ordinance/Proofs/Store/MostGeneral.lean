import Ordinance.Proofs.Store.Reachable

namespace Ordinance.Store

/-- Types without open parts for the classes: one for each class, made of those of its parts. -/
structure Valuation (s : Store) (φ : Class → Ty) : Prop extends Model s φ where
  ground : ∀ v < s.size, (φ v).isConcrete = true

variable {s t : Store} {a b : Class} {φ : Class → Ty}

/-- A reading of the store is one of the unified store iff it reads both classes alike. -/
theorem model_iff_of_unify (hs : s.Wf) (ha : a < s.size) (hb : b < s.size)
    (run : unifyWithin s.size a b s = .ok () t) : t.Model φ ↔ s.Model φ ∧ φ a = φ b := by
  have unified := unifyWithin_ok hs ha hb run
  constructor
  · intro model
    refine ⟨model.of_le hs unified.le, ?_⟩
    rw [← model.find a, unified.find, model.find]
  · rintro ⟨model, eq⟩
    obtain ⟨u, again, after⟩ := unifyWithin_complete hs ha hb model eq
      (List.pairwise_singleton _ a) (Nat.add_zero _)
    rw [run] at again
    cases again
    exact after

theorem valuation_iff_of_unify (hs : s.Wf) (ha : a < s.size) (hb : b < s.size)
    (run : unifyWithin s.size a b s = .ok () t) :
    t.Valuation φ ↔ s.Valuation φ ∧ φ a = φ b := by
  have size := (unifyWithin_ok hs ha hb run).size
  constructor
  · rintro ⟨model, ground⟩
    obtain ⟨before, eq⟩ := (model_iff_of_unify hs ha hb run).mp model
    exact ⟨⟨before, size ▸ ground⟩, eq⟩
  · rintro ⟨⟨model, ground⟩, eq⟩
    exact ⟨(model_iff_of_unify hs ha hb run).mpr ⟨model, eq⟩, size ▸ ground⟩

/-- Classes that unify have become one, at no further cost; those that do not have no type in
common. -/
theorem unify_most_general (h : s.Reachable) (ha : a < s.size) (hb : b < s.size) :
    (∀ t, s.unify a b = (.ok (), t) → (∀ φ, t.Valuation φ ↔ s.Valuation φ ∧ φ a = φ b) ∧
      t.find a = t.find b ∧ t.resolve a = t.resolve b) ∧
    ∀ m t, s.unify a b = (.error m, t) → ∀ φ, s.Valuation φ → φ a ≠ φ b := by
  rcases unify_cases a b s with ⟨u, eq, run⟩ | ⟨m, u, clash, v, eq, _, run⟩
  · refine ⟨fun t ok => ?_, fun m t failed => ?_⟩
    · obtain rfl : u = t := by simpa [eq] using ok
      have unified := unifyWithin_ok h.wf ha hb run
      refine ⟨fun φ => valuation_iff_of_unify h.wf ha hb run, unified.find, ?_⟩
      rw [← unified.wf.model_resolve.find a, unified.find, unified.wf.model_resolve.find]
    · simp [eq] at failed
  · refine ⟨fun t ok => ?_, fun m t _ φ valuation same => ?_⟩
    · simp [eq] at ok
    · obtain ⟨u, ok, _⟩ := unifyWithin_complete h.wf ha hb valuation.toModel same
        (List.pairwise_singleton _ a) (Nat.add_zero _)
      rw [run] at ok
      cases ok

section Example

/-- A pair of one hole twice, and a pair of an integer and another hole. -/
def pairs : Store :=
  let hole := (alloc .any .synthetic (empty false)).2
  let twice := (alloc (.tuple [0, 0]) .synthetic hole).2
  (load .synthetic (.tuple [.int, .any]) twice).2

theorem pairs_reachable : pairs.Reachable :=
  .load _ _ (.alloc _ _ (.alloc _ _ (.empty false) (by decide)) (by decide))

/-- Both holes are the integer, and nothing else is asked of them. A hole in a list is not that
list. -/
theorem pairs_unify_most_general :
    (∃ t, pairs.unify 1 4 = (.ok (), t) ∧ t.resolve 3 = .int ∧
      ∀ φ, t.Valuation φ ↔ pairs.Valuation φ ∧ φ 1 = φ 4) ∧
    ∃ m, (listMaker.unify 1 2).1 = .error m ∧ ∀ φ, listMaker.Valuation φ → φ 1 ≠ φ 2 := by
  constructor
  · have ok : (pairs.unify 1 4).1.isOk = true ∧ (pairs.unify 1 4).2.resolve 3 = .int := by
      decide +kernel
    have spec := unify_most_general pairs_reachable (a := 1) (b := 4) (by decide +kernel)
      (by decide +kernel)
    rcases unify_cases 1 4 pairs with ⟨t, eq, _⟩ | ⟨m, t, _, _, eq, _⟩
    · rw [eq] at ok
      exact ⟨t, eq, ok.2, (spec.1 t eq).1⟩
    · simp [eq, Except.isOk, Except.toBool] at ok
  · have failed : (listMaker.unify 1 2).1.isOk = false := by decide +kernel
    have spec := unify_most_general listMaker_reachable (a := 1) (b := 2) (by decide +kernel)
      (by decide +kernel)
    rcases unify_cases 1 2 listMaker with ⟨t, eq, _⟩ | ⟨m, t, _, _, eq, _⟩
    · simp [eq, Except.isOk, Except.toBool] at failed
    · exact ⟨m, by rw [eq], spec.2 m t eq⟩

end Example

end Ordinance.Store
