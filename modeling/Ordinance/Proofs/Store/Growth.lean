import Ordinance.Proofs.Store.Wf

namespace Ordinance.Store

/-- What `s` knows, `t` knows: equal classes stay equal, and the structure of a class stays what it
is up to equal parts. -/
structure Le (s t : Store) : Prop where
  size : s.size ≤ t.size
  find {u v : Class} : s.find u = s.find v → t.find u = t.find v
  shape {v : Class} : s.shape v ≠ .any → (s.shape v).map t.find = (t.shape v).map t.find

variable {s t u : Store}

theorem Le.refl (s : Store) : s.Le s := ⟨Nat.le_refl _, id, fun _ => rfl⟩

theorem Le.shape_ne (h : s.Le t) {v : Class} (hv : s.shape v ≠ .any) : t.shape v ≠ .any := by
  intro eq
  have := h.shape hv
  rw [eq] at this
  exact hv (Shape.map_eq_any.mp this)

theorem Le.trans (ht : t.Wf) (h : s.Le t) (k : t.Le u) : s.Le u where
  size := h.size.trans k.size
  find eq := k.find (h.find eq)
  shape {v} hv := by
    have through : u.find ∘ t.find = u.find := funext fun w => k.find (ht.find_find w)
    have below := congrArg (Shape.map u.find) (h.shape hv)
    simp only [Shape.map_map, through] at below
    exact below.trans (k.shape (h.shape_ne hv))

theorem Le.partOf (h : s.Le t) {p v : Class} (hp : s.PartOf p v) : t.PartOf p v := by
  obtain ⟨q, hq, eq⟩ := hp
  have ne : s.shape v ≠ .any := by
    intro any
    simp [any, Shape.parts] at hq
  have parts : (s.shape v).parts.map t.find = (t.shape v).parts.map t.find := by
    simpa using congrArg Shape.parts (h.shape ne)
  have mem : t.find q ∈ (t.shape v).parts.map t.find := parts ▸ List.mem_map_of_mem hq
  obtain ⟨r, hr, same⟩ := List.mem_map.mp mem
  exact ⟨r, hr, same.trans (h.find eq)⟩

theorem Le.inside (h : s.Le t) {p v : Class} (hp : s.Inside p v) : t.Inside p v :=
  Relation.TransGen.mono (fun _ _ => h.partOf) _ _ hp

section Alloc

variable {shape : Shape Class} {span : Span}

@[simp] theorem size_alloc : (alloc shape span s).2.size = s.size + 1 := by
  simp [alloc, size]

@[simp] theorem alloc_fst : (alloc shape span s).1 = s.size := rfl

theorem Wf.find_alloc (hs : s.Wf) (v : Class) : (alloc shape span s).2.find v = s.find v := by
  simp only [alloc, find, Array.getElem?_push, hs.size_leaders]
  split
  next h =>
    subst h
    simp [hs.size_leaders]
  next => rfl

theorem Wf.shape_alloc (hs : s.Wf) (v : Class) :
    (alloc shape span s).2.shape v = if v = s.size then shape else s.shape v := by
  simp only [Store.shape, cell, hs.find_alloc]
  simp only [alloc, Array.getElem?_push]
  by_cases h : v = s.size
  · have self : s.find v = s.cells.size := (hs.find_of_le (Nat.le_of_eq h.symm)).trans h
    rw [self, if_pos h]
    simp
  · have ne : s.find v ≠ s.cells.size := by
      intro eq
      rcases Nat.lt_or_ge v s.size with lt | ge
      · exact Nat.lt_irrefl _ (eq ▸ hs.find_lt lt)
      · exact h ((hs.find_of_le ge).symm.trans eq)
    simp [h, ne]

theorem Wf.alloc_le (hs : s.Wf) : s.Le (alloc shape span s).2 where
  size := by simp
  find := by simp [hs.find_alloc]
  shape {v} hv := by
    have ne : v ≠ s.size := fun eq => hv (hs.shape_of_le (Nat.le_of_eq eq.symm))
    simp [hs.shape_alloc, ne]

private theorem Wf.partOf_alloc (hs : s.Wf) {p v : Class} (hv : v ≠ s.size)
    (h : (alloc shape span s).2.PartOf p v) : s.PartOf p v := by
  simpa [PartOf, hs.find_alloc, hs.shape_alloc, hv] using h

theorem Wf.alloc (hs : s.Wf) (parts : ∀ p ∈ shape.parts, p < s.size) :
    (alloc shape span s).2.Wf where
  size_leaders := by
    have := hs.size_leaders
    simp_all [Store.alloc, size]
  find_lt {v} hv := by
    rw [size_alloc] at hv
    rw [hs.find_alloc, size_alloc]
    rcases Nat.lt_succ_iff_lt_or_eq.mp hv with lt | rfl
    · exact Nat.lt_succ_of_lt (hs.find_lt lt)
    · exact (hs.find_of_le (Nat.le_refl _)).symm ▸ Nat.lt_succ_self _
  find_find v := by simp only [hs.find_alloc, hs.find_find]
  parts_lt {v p} hp := by
    rw [hs.shape_alloc] at hp
    rw [size_alloc]
    split at hp
    · exact Nat.lt_succ_of_lt (parts p hp)
    · exact Nat.lt_succ_of_lt (hs.parts_lt hp)
  wellFounded := by
    -- Old classes have their old parts; the new class has old classes as parts.
    have old : ∀ v, v ≠ s.size → Acc (Store.alloc shape span s).2.PartOf v := by
      intro v
      induction hs.wellFounded.apply v with
      | intro v _ ih =>
        intro hv
        refine ⟨v, fun p hp => ?_⟩
        have hp := hs.partOf_alloc hv hp
        refine ih p hp fun eq => ?_
        have lt := hs.find_lt_of_partOf hp
        rw [eq, hs.find_of_le (Nat.le_refl _)] at lt
        exact Nat.lt_irrefl _ lt
    refine ⟨fun v => ?_⟩
    by_cases hv : v = s.size
    · subst hv
      refine ⟨_, fun p hp => old p fun eq => ?_⟩
      obtain ⟨q, hq, same⟩ := hp
      rw [hs.shape_alloc, if_pos rfl] at hq
      rw [hs.find_alloc, hs.find_alloc, eq, hs.find_of_le (Nat.le_refl _)] at same
      exact Nat.lt_irrefl _ (same ▸ hs.find_lt (parts q hq))
    · exact old v hv

end Alloc

end Ordinance.Store
