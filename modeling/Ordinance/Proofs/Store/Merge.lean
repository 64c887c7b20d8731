import Ordinance.Proofs.Store.Growth

namespace Ordinance.Store

/-- The class of `follow` has joined the class of `lead`. -/
structure Joins (s t : Store) (lead follow : Class) : Prop where
  cells : t.cells = s.cells
  size_leaders : t.leaders.size = s.leaders.size
  lead_lt : lead < s.size
  find_lead : s.find lead = lead
  find_follow : s.find follow = follow
  open_of_open : s.shape lead = .any → s.shape follow = .any
  find (v : Class) : t.find v = if s.find v = follow then lead else s.find v

/-- The two classes can be one: they agree where both are known, and neither is inside the other. -/
structure Joinable (s : Store) (a b : Class) : Prop where
  agree : s.shape a ≠ .any → s.shape b ≠ .any → (s.shape a).map s.find = (s.shape b).map s.find
  not_inside : ¬ s.Inside a b
  not_contains : ¬ s.Inside b a

variable {s t : Store} {a b lead follow : Class}

namespace Joinable

theorem symm (h : s.Joinable a b) : s.Joinable b a :=
  ⟨fun hb ha => (h.agree ha hb).symm, h.not_contains, h.not_inside⟩

theorem congr (hs : s.Wf) (h : s.Joinable a b) {c d : Class} (hc : s.find c = s.find a)
    (hd : s.find d = s.find b) : s.Joinable c d where
  agree := by simpa only [hs.shape_congr hc, hs.shape_congr hd] using h.agree
  not_inside i := h.not_inside (hs.inside_congr_left hc (hs.inside_congr_right hd i))
  not_contains i := h.not_contains (hs.inside_congr_left hd (hs.inside_congr_right hc i))

private theorem not_inside_of_agree (hs : s.Wf)
    (h : (s.shape a).map s.find = (s.shape b).map s.find) : ¬ s.Inside a b := by
  -- The last step of a way from `b` down to `a` is one from `a` down to itself.
  intro inside
  have shared {p : Class} (hp : s.PartOf p b) : s.PartOf p a := by
    obtain ⟨q, hq, eq⟩ := hp
    have parts : (s.shape a).parts.map s.find = (s.shape b).parts.map s.find := by
      simpa using congrArg Shape.parts h
    have mem : s.find q ∈ (s.shape a).parts.map s.find := parts ▸ List.mem_map_of_mem hq
    obtain ⟨r, hr, same⟩ := List.mem_map.mp mem
    exact ⟨r, hr, same.trans eq⟩
  cases inside with
  | single hp => exact hs.inside_irrefl a (.single (shared hp))
  | tail i hp => exact hs.inside_irrefl a (i.tail (shared hp))

theorem of_agree (hs : s.Wf) (h : (s.shape a).map s.find = (s.shape b).map s.find) :
    s.Joinable a b :=
  ⟨fun _ _ => h, not_inside_of_agree hs h, not_inside_of_agree hs h.symm⟩

theorem of_open (ha : s.shape a = .any) (h : ¬ s.Inside a b) : s.Joinable a b where
  agree known := absurd ha known
  not_inside := h
  not_contains i := by
    obtain ⟨p, _, q, hq, _⟩ := Relation.TransGen.tail'_iff.mp i
    simp [ha, Shape.parts] at hq

end Joinable

/-- One of the two leaders leads both classes from now on, and a known one before an open one. -/
theorem Wf.merge_joins (hs : s.Wf) (ha : a < s.size) (hb : b < s.size) :
    s.Joins (s.merge a b) (s.find a) (s.find b) ∨ s.Joins (s.merge a b) (s.find b) (s.find a) := by
  have find (lead follow : Class) (hf : follow < s.size) (v : Class) :
      ({ s with leaders := s.leaders.map fun v => if v = follow then lead else v } : Store).find v =
        if s.find v = follow then lead else s.find v := by
    simp only [Store.find, Array.getElem?_map]
    rcases Nat.lt_or_ge v s.size with lt | ge
    · have : v < s.leaders.size := hs.size_leaders.symm ▸ lt
      simp [this]
    · have out : s.leaders.size ≤ v := hs.size_leaders.symm ▸ ge
      have ne : v ≠ follow := fun eq => Nat.lt_irrefl _ (Nat.lt_of_lt_of_le hf (eq ▸ ge))
      simp [out, ne]
  simp only [merge, hs.shape_find]
  by_cases h : (s.shape b).isAny && !(s.shape a).isAny
  · left
    rw [if_pos h]
    refine ⟨rfl, by simp, hs.find_lt ha, hs.find_find a, hs.find_find b, fun eq => ?_,
      find _ _ (hs.find_lt hb)⟩
    rw [hs.shape_find] at eq
    simp [eq, Shape.isAny] at h
  · right
    rw [if_neg h]
    refine ⟨rfl, by simp, hs.find_lt hb, hs.find_find b, hs.find_find a, fun eq => ?_,
      find _ _ (hs.find_lt ha)⟩
    rw [hs.shape_find] at eq ⊢
    cases hp : s.shape a <;> simp_all [Shape.isAny]

namespace Joins

theorem size (h : s.Joins t lead follow) : t.size = s.size := by simp [Store.size, h.cells]

theorem shape (h : s.Joins t lead follow) (v : Class) :
    t.shape v = if s.find v = follow then s.shape lead else s.shape v := by
  simp only [Store.shape, cell, h.cells, h.find]
  split
  · rw [h.find_lead]
  · rfl

theorem find_eq (h : s.Joins t lead follow) : t.find lead = t.find follow := by
  by_cases eq : lead = follow <;> simp [h.find, h.find_lead, h.find_follow, eq]

/-- Only the two classes have become one. -/
theorem find_eq_cases (h : s.Joins t lead follow) {u v : Class} (eq : t.find u = t.find v) :
    s.find u = s.find v ∨
      (s.find u = lead ∨ s.find u = follow) ∧ (s.find v = lead ∨ s.find v = follow) := by
  rw [h.find, h.find] at eq
  by_cases hu : s.find u = follow <;> by_cases hv : s.find v = follow <;> simp_all

theorem le (h : s.Joins t lead follow) (hs : s.Wf) (joinable : s.Joinable lead follow) : s.Le t where
  size := Nat.le_of_eq h.size.symm
  find eq := by rw [h.find, h.find, eq]
  shape {v} hv := by
    rw [h.shape]
    split
    next eq =>
      have same : s.shape v = s.shape follow := hs.shape_congr (eq.trans h.find_follow.symm)
      have hf : s.shape follow ≠ .any := same ▸ hv
      have through : t.find = (fun w => if w = follow then lead else w) ∘ s.find := funext h.find
      rw [same, through, ← Shape.map_map, ← Shape.map_map,
        joinable.agree (fun any => hf (h.open_of_open any)) hf]
    next => rfl

/-- The parts of the joined class are inside neither of its halves. -/
private theorem part_of_lead (h : s.Joins t lead follow) (hs : s.Wf) (joinable : s.Joinable lead follow)
    {p v : Class} (hv : s.find v = lead ∨ s.find v = follow) (hp : t.PartOf p v) :
    s.PartOf p lead ∧ ¬ (s.find p = lead ∨ s.find p = follow) := by
  obtain ⟨q, hq, same⟩ := hp
  have shape : t.shape v = s.shape lead := by
    rw [h.shape]
    split
    · rfl
    · next ne => exact hs.shape_congr ((hv.resolve_right ne).trans h.find_lead.symm)
  have part : s.PartOf q lead := ⟨q, shape ▸ hq, rfl⟩
  have apart : ¬ (s.find q = lead ∨ s.find q = follow) := by
    rintro (eq | eq)
    · exact hs.find_ne_of_inside (.single part) (eq.trans h.find_lead.symm)
    · exact joinable.not_contains (hs.inside_congr_left (eq.trans h.find_follow.symm) (.single part))
  have eq : s.find q = s.find p := (h.find_eq_cases same).resolve_right fun both => apart both.1
  exact ⟨(hs.partOf_congr eq rfl).mp part, eq ▸ apart⟩

private theorem part_of_other (h : s.Joins t lead follow) {p v : Class}
    (hv : s.find v ≠ follow) (hp : t.PartOf p v) :
    s.PartOf p v ∨ (s.find p = lead ∨ s.find p = follow) ∧
      (s.PartOf lead v ∨ s.PartOf follow v) := by
  obtain ⟨q, hq, same⟩ := hp
  rw [h.shape, if_neg hv] at hq
  rcases h.find_eq_cases same with eq | ⟨hq' | hq', hp⟩
  · exact .inl ⟨q, hq, eq⟩
  · exact .inr ⟨hp, .inl ⟨q, hq, hq'.trans h.find_lead.symm⟩⟩
  · exact .inr ⟨hp, .inr ⟨q, hq, hq'.trans h.find_follow.symm⟩⟩

/-- Taking parts still ends: first for classes that contain neither half, hence for the joined
class, hence for all. -/
private theorem wellFounded (h : s.Joins t lead follow) (hs : s.Wf) (joinable : s.Joinable lead follow) :
    WellFounded t.PartOf := by
  have without (v : Class) (hv : ¬ (s.find v = lead ∨ s.find v = follow))
      (hl : ¬ s.Inside lead v) (hf : ¬ s.Inside follow v) : Acc t.PartOf v := by
    induction hs.wellFounded.apply v with
    | intro v _ ih =>
      refine ⟨v, fun p hp => ?_⟩
      rcases h.part_of_other (fun eq => hv (.inr eq)) hp with hp | ⟨_, hp | hp⟩
      · refine ih p hp ?_ (fun i => hl (i.tail hp)) (fun i => hf (i.tail hp))
        rintro (eq | eq)
        · exact hl (hs.inside_congr_left (eq.trans h.find_lead.symm) (.single hp))
        · exact hf (hs.inside_congr_left (eq.trans h.find_follow.symm) (.single hp))
      · exact absurd (.single hp) hl
      · exact absurd (.single hp) hf
  have joined (v : Class) (hv : s.find v = lead ∨ s.find v = follow) : Acc t.PartOf v := by
    refine ⟨v, fun p hp => ?_⟩
    obtain ⟨part, apart⟩ := h.part_of_lead hs joinable hv hp
    exact without p apart (fun i => hs.inside_irrefl _ (i.tail part))
      (fun i => joinable.not_contains (i.tail part))
  refine ⟨fun v => ?_⟩
  induction hs.wellFounded.apply v with
  | intro v _ ih =>
    by_cases hv : s.find v = lead ∨ s.find v = follow
    · exact joined v hv
    · refine ⟨v, fun p hp => ?_⟩
      rcases h.part_of_other (fun eq => hv (.inr eq)) hp with hp | ⟨hp, _⟩
      · exact ih p hp
      · exact joined p hp

theorem wf (h : s.Joins t lead follow) (hs : s.Wf) (joinable : s.Joinable lead follow) : t.Wf where
  size_leaders := by rw [h.size_leaders, h.size, hs.size_leaders]
  find_lt {v} hv := by
    rw [h.size] at hv ⊢
    rw [h.find]
    split
    · exact h.lead_lt
    · exact hs.find_lt hv
  find_find v := by
    simp only [h.find]
    split <;> simp_all [h.find_lead, hs.find_find]
  parts_lt {v p} hp := by
    rw [h.shape] at hp
    rw [h.size]
    split at hp
    · exact hs.parts_lt hp
    · exact hs.parts_lt hp
  wellFounded := h.wellFounded hs joinable

end Joins

/-- A merge of classes that can be one keeps what is known, and makes them one. -/
theorem Wf.merge (hs : s.Wf) (ha : a < s.size) (hb : b < s.size) (joinable : s.Joinable a b) :
    (s.merge a b).Wf ∧ s.Le (s.merge a b) ∧ (s.merge a b).cells = s.cells ∧
      (s.merge a b).find a = (s.merge a b).find b := by
  have leaders := joinable.congr hs (hs.find_find a) (hs.find_find b)
  rcases hs.merge_joins ha hb with h | h
  · have le := h.le hs leaders
    refine ⟨h.wf hs leaders, le, h.cells, ?_⟩
    rw [← le.find (hs.find_find a), ← le.find (hs.find_find b), h.find_eq]
  · have le := h.le hs leaders.symm
    refine ⟨h.wf hs leaders.symm, le, h.cells, ?_⟩
    rw [← le.find (hs.find_find a), ← le.find (hs.find_find b), h.find_eq]

end Ordinance.Store
