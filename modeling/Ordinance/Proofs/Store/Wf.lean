import Mathlib.Data.Finset.Card
import Mathlib.Logic.Relation
import Mathlib.Order.WellFounded
import Ordinance.Store.Basic

namespace Ordinance

namespace Shape

variable {α β γ : Type}

@[simp] theorem map_map (f : α → β) (g : β → γ) (p : Shape α) :
    (p.map f).map g = p.map (g ∘ f) := by
  cases p <;> simp [map]

@[simp] theorem parts_map (f : α → β) (p : Shape α) : (p.map f).parts = p.parts.map f := by
  cases p <;> simp [map, parts]

@[simp] theorem map_eq_any {f : α → β} {p : Shape α} : p.map f = any ↔ p = any := by
  cases p <;> simp [map]

theorem map_congr {f g : α → β} {p : Shape α} (h : ∀ a ∈ p.parts, f a = g a) :
    p.map f = p.map g := by
  cases p <;> simp_all [map, parts]

end Shape

namespace Store

/-- `p` is a part of `u`, one level down. -/
def PartOf (s : Store) (p u : Class) : Prop := ∃ q ∈ (s.shape u).parts, s.find q = s.find p

/-- `p` is a part of `u`, any number of levels down. -/
abbrev Inside (s : Store) : Class → Class → Prop := Relation.TransGen s.PartOf

/-- Every class has one leader, all parts are classes of the store, and taking parts comes to an
end. -/
structure Wf (s : Store) : Prop where
  size_leaders : s.leaders.size = s.size
  find_lt {v : Class} : v < s.size → s.find v < s.size
  find_find (v : Class) : s.find (s.find v) = s.find v
  parts_lt {v p : Class} : p ∈ (s.shape v).parts → p < s.size
  wellFounded : WellFounded s.PartOf

theorem empty_wf (tracing : Bool) : (empty tracing).Wf where
  size_leaders := rfl
  find_lt h := by simp [empty, size] at h
  find_find v := by simp [empty, find]
  parts_lt h := by simp [empty, shape, cell, Shape.parts] at h
  wellFounded := ⟨fun u => ⟨u, fun p ⟨q, hq, _⟩ => by
    simp [empty, shape, cell, Shape.parts] at hq⟩⟩

variable {s : Store}

namespace Wf

theorem find_of_le (hs : s.Wf) {v : Class} (h : s.size ≤ v) : s.find v = v := by
  have : s.leaders.size ≤ v := hs.size_leaders ▸ h
  simp [find, this]

theorem shape_find (hs : s.Wf) (v : Class) : s.shape (s.find v) = s.shape v := by
  simp [shape, cell, hs.find_find]

theorem shape_congr (hs : s.Wf) {u v : Class} (h : s.find u = s.find v) : s.shape u = s.shape v := by
  rw [← hs.shape_find u, h, hs.shape_find v]

theorem shape_of_le (hs : s.Wf) {v : Class} (h : s.size ≤ v) : s.shape v = .any := by
  have : s.cells.size ≤ v := h
  simp [shape, cell, hs.find_of_le h, this]

theorem lt_of_shape_ne (hs : s.Wf) {v : Class} (h : s.shape v ≠ .any) : v < s.size := by
  by_contra hv
  exact h (hs.shape_of_le (Nat.le_of_not_lt hv))

theorem partOf_congr (hs : s.Wf) {p q u v : Class} (hp : s.find p = s.find q)
    (hu : s.find u = s.find v) : s.PartOf p u ↔ s.PartOf q v := by
  simp only [PartOf, hp, hs.shape_congr hu]

theorem inside_irrefl (hs : s.Wf) (v : Class) : ¬ s.Inside v v :=
  hs.wellFounded.transGen.irrefl.irrefl v

theorem inside_congr_left (hs : s.Wf) {p q u : Class} (h : s.find p = s.find q)
    (hp : s.Inside p u) : s.Inside q u := by
  induction hp with
  | single hp => exact .single ((hs.partOf_congr h rfl).mp hp)
  | tail _ hu ih => exact ih.tail hu

theorem inside_congr_right (hs : s.Wf) {p u v : Class} (h : s.find u = s.find v)
    (hp : s.Inside p u) : s.Inside p v := by
  cases hp with
  | single hp => exact .single ((hs.partOf_congr rfl h).mp hp)
  | tail hp hu => exact hp.tail ((hs.partOf_congr rfl h).mp hu)

theorem find_ne_of_inside (hs : s.Wf) {p u : Class} (h : s.Inside p u) : s.find p ≠ s.find u :=
  fun eq => hs.inside_irrefl u (hs.inside_congr_left eq h)

theorem find_lt_of_partOf (hs : s.Wf) {p u : Class} (h : s.PartOf p u) : s.find p < s.size := by
  obtain ⟨q, hq, eq⟩ := h
  exact eq ▸ hs.find_lt (hs.parts_lt hq)

open scoped Classical in
/-- The leaders of the classes inside `u`. -/
private noncomputable def contents (s : Store) (u : Class) : Finset Class :=
  (Finset.range s.size).filter fun w => s.Inside w u

private theorem mem_contents {u w : Class} :
    w ∈ contents s u ↔ w < s.size ∧ s.Inside w u := by
  simp [contents]

/-- The number of classes inside a class is less than the number of all classes, and it goes down
from a class to its parts. -/
theorem exists_rank (hs : s.Wf) : ∃ rank : Class → Nat,
    (∀ v, v < s.size → rank v < s.size) ∧ ∀ p u, s.PartOf p u → rank p < rank u := by
  refine ⟨fun u => (contents s u).card, fun v hv => ?_, fun p u hp => ?_⟩
  · have all : contents s v ⊆ Finset.range s.size := fun w hw => by
      simpa using (mem_contents.mp hw).1
    have sub : contents s v ⊂ Finset.range s.size := by
      refine (Finset.ssubset_iff_of_subset all).mpr ⟨v, by simpa using hv, fun hw => ?_⟩
      exact hs.inside_irrefl v (mem_contents.mp hw).2
    simpa using Finset.card_lt_card sub
  · refine Finset.card_lt_card (Finset.ssubset_iff_of_subset ?_ |>.mpr ⟨s.find p, ?_, ?_⟩)
    · intro w hw
      obtain ⟨lt, hw⟩ := mem_contents.mp hw
      exact mem_contents.mpr ⟨lt, hw.tail hp⟩
    · have same : s.find p = s.find (s.find p) := (hs.find_find p).symm
      exact mem_contents.mpr ⟨hs.find_lt_of_partOf hp,
        hs.inside_congr_left same (.single hp)⟩
    · intro hw
      exact hs.inside_irrefl p (hs.inside_congr_left (hs.find_find p) (mem_contents.mp hw).2)

end Wf

end Store

end Ordinance
