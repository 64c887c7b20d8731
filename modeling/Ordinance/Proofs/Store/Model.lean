import Ordinance.Proofs.Store.Unify
import Ordinance.Proofs.Ty.Instance

namespace Ordinance

theorem Ty.ofShape_injective : Function.Injective Ty.ofShape := by
  intro p q h
  cases p <;> cases q <;> simp_all [Ty.ofShape]

/-- A part of a type is smaller than the type. -/
theorem Ty.sizeOf_lt_ofShape {p : Shape Ty} {t : Ty} (h : t ∈ p.parts) :
    sizeOf t < sizeOf (Ty.ofShape p) := by
  cases p with
  | arrow ps r =>
    rw [Ty.ofShape, Ty.arrow.sizeOf_spec]
    rcases List.mem_cons.mp h with rfl | h
    · omega
    · have := List.sizeOf_lt_of_mem h
      omega
  | tuple ts =>
    have : sizeOf t < sizeOf ts := List.sizeOf_lt_of_mem h
    rw [Ty.ofShape, Ty.tuple.sizeOf_spec]
    omega
  | option t =>
    obtain rfl := List.mem_singleton.mp h
    simp [Ty.ofShape]
  | array t =>
    obtain rfl := List.mem_singleton.mp h
    simp [Ty.ofShape]
  | _ => simp [Shape.parts] at h

theorem Shape.agrees_of_map_eq {α β : Type} {f : α → β} {p q : Shape α} (h : p.map f = q.map f) :
    p.agrees q = true ∧ ∀ x ∈ p.parts.zip q.parts, f x.1 = f x.2 := by
  cases p with
  | arrow ps r =>
    cases q with
    | arrow qs s =>
      simp only [Shape.map, Shape.arrow.injEq] at h
      obtain ⟨length, params⟩ := map_eq_iff_zip.mp h.1
      exact ⟨by simpa [agrees] using length, List.forall_mem_cons.mpr ⟨h.2, params⟩⟩
    | _ => simp [Shape.map] at h
  | tuple ts =>
    cases q with
    | tuple us =>
      simp only [Shape.map, Shape.tuple.injEq] at h
      obtain ⟨length, parts⟩ := map_eq_iff_zip.mp h
      exact ⟨by simpa [agrees] using length, parts⟩
    | _ => simp [Shape.map] at h
  | _ => cases q <;> simp_all [agrees, Shape.map, Shape.parts]

namespace Store

/-- A reading of all classes as types that makes equal classes equal and gives every known class
its structure. An open class may be any type. -/
structure Model (s : Store) (φ : Class → Ty) : Prop where
  find (v : Class) : φ (s.find v) = φ v
  shape {v : Class} : s.shape v ≠ .any → φ v = .ofShape ((s.shape v).map φ)

variable {s t : Store} {φ : Class → Ty} {a b : Class} {n : Nat}

namespace Model

theorem of_le (hs : s.Wf) (le : s.Le t) (h : t.Model φ) : s.Model φ where
  find v := by rw [← h.find (s.find v), le.find (hs.find_find v), h.find]
  shape {v} hv := by
    have through : φ ∘ t.find = φ := funext h.find
    have maps := congrArg (Shape.map φ) (le.shape hv)
    simp only [Shape.map_map, through] at maps
    rw [maps]
    exact h.shape (le.shape_ne hv)

theorem congr (hs : s.Wf) (h : s.Model φ) {ψ : Class → Ty} (agree : ∀ v < s.size, ψ v = φ v) :
    s.Model ψ where
  find v := by
    rcases Nat.lt_or_ge v s.size with lt | ge
    · rw [agree v lt, agree _ (hs.find_lt lt), h.find]
    · rw [hs.find_of_le ge]
  shape {v} hv := by
    rw [agree v (hs.lt_of_shape_ne hv), h.shape hv,
      Shape.map_congr fun p hp => agree p (hs.parts_lt hp)]

theorem sizeOf_lt_of_partOf (h : s.Model φ) (hp : s.PartOf a b) : sizeOf (φ a) < sizeOf (φ b) := by
  obtain ⟨q, hq, eq⟩ := hp
  have known : s.shape b ≠ .any := by
    intro any
    simp [any, Shape.parts] at hq
  rw [h.shape known, ← h.find a, ← eq, h.find]
  exact Ty.sizeOf_lt_ofShape (by simpa using List.mem_map_of_mem hq)

theorem sizeOf_lt_of_inside (h : s.Model φ) (hp : s.Inside a b) : sizeOf (φ a) < sizeOf (φ b) := by
  induction hp with
  | single hp => exact h.sizeOf_lt_of_partOf hp
  | tail _ hp ih => exact ih.trans (h.sizeOf_lt_of_partOf hp)

theorem same (h : s.Model φ) (same : s.SameClasses t) : t.Model φ where
  find := by simpa only [same.find] using h.find
  shape {v} := by simpa only [same.shape] using h.shape

private theorem joins (h : s.Model φ) (joins : s.Joins t a b) (eq : φ a = φ b) :
    t.Model φ where
  find v := by
    rw [joins.find]
    split
    next hv => rw [eq, ← hv, h.find]
    next => exact h.find v
  shape {v} hv := by
    rw [joins.shape] at hv ⊢
    split at hv
    next follow => rw [← h.find v, follow, ← eq, if_pos rfl, h.shape hv]
    next lead => rw [if_neg lead, h.shape hv]

theorem merge (hs : s.Wf) (h : s.Model φ) (ha : a < s.size) (hb : b < s.size) (eq : φ a = φ b) :
    (s.merge a b).Model φ := by
  have eq : φ (s.find a) = φ (s.find b) := by rw [h.find, h.find, eq]
  rcases hs.merge_joins ha hb with j | j
  · exact h.joins j eq
  · exact h.joins j eq.symm

end Model

section Fill

variable {σ : Class → Ty}

/-- The type of a class read down to `depth` levels, with a type chosen for every open class. -/
def fillWithin (s : Store) (σ : Class → Ty) : Nat → Class → Ty
  | 0, v => σ (s.find v)
  | depth + 1, v =>
      if s.shape v = .any then σ (s.find v)
      else .ofShape ((s.shape v).map (s.fillWithin σ depth))

/-- The type of a class with all choices made at once. What is open in one place is filled with one
type wherever it stands. -/
def fill (s : Store) (σ : Class → Ty) (v : Class) : Ty := s.fillWithin σ s.size v

theorem resolve_eq_fill (s : Store) : s.resolve = s.fill fun _ => .any := by
  funext v
  rw [resolve, fill]
  generalize s.size = depth
  induction depth generalizing v with
  | zero => rfl
  | succ depth ih =>
    rw [resolveWithin, fillWithin]
    split
    next any =>
      rw [any]
      rfl
    next => exact congrArg _ (Shape.map_congr fun p _ => ih p)

/-- Reading further down than a class goes makes no difference. -/
private theorem Wf.fillWithin_eq {rank : Class → Nat}
    (descends : ∀ p u, s.PartOf p u → rank p < rank u) (depth more : Nat) (v : Class)
    (deep : rank v < depth) : s.fillWithin σ (depth + more) v = s.fillWithin σ depth v := by
  induction depth generalizing v with
  | zero => exact absurd deep (Nat.not_lt_zero _)
  | succ depth ih =>
    rw [Nat.succ_add, fillWithin, fillWithin]
    split
    next => rfl
    next =>
      refine congrArg _ (Shape.map_congr fun p hp => ih p ?_)
      exact Nat.lt_of_lt_of_le (descends p v ⟨p, hp, rfl⟩) (Nat.le_of_lt_succ deep)

theorem Wf.fill_eq (hs : s.Wf) (v : Class) : s.fill σ v =
    if s.shape v = .any then σ (s.find v) else .ofShape ((s.shape v).map (s.fill σ)) := by
  obtain ⟨rank, bounded, descends⟩ := hs.exists_rank
  split
  next any =>
    rw [fill]
    cases s.size with
    | zero => rfl
    | succ depth => rw [fillWithin, if_pos any]
  next known =>
    have lt := hs.lt_of_shape_ne known
    obtain ⟨depth, hd⟩ : ∃ depth, s.size = depth + 1 :=
      Nat.exists_eq_succ_of_ne_zero (Nat.ne_zero_of_lt lt)
    have deep := bounded v lt
    rw [fill, hd, fillWithin, if_neg known]
    refine congrArg _ (Shape.map_congr fun p hp => ?_)
    have below := descends p v ⟨p, hp, rfl⟩
    rw [fill, hd]
    exact (Wf.fillWithin_eq descends depth 1 p (by omega)).symm

/-- Every choice of types for the open classes gives a reading, -/
theorem Wf.model_fill (hs : s.Wf) (σ : Class → Ty) : s.Model (s.fill σ) where
  find v := by rw [hs.fill_eq, hs.fill_eq, hs.shape_find, hs.find_find]
  shape {v} known := by rw [hs.fill_eq, if_neg known]

/-- and every reading comes from one. -/
theorem Model.fill_eq (h : s.Model φ) (v : Class) : s.fill φ v = φ v := by
  rw [fill]
  generalize s.size = depth
  induction depth generalizing v with
  | zero => exact h.find v
  | succ depth ih =>
    rw [fillWithin]
    split
    next => exact h.find v
    next known =>
      rw [h.shape known]
      exact congrArg _ (Shape.map_congr fun p _ => ih p)

/-- What the classes read as is a reading of them; open parts read as `any`. -/
theorem Wf.model_resolve (hs : s.Wf) : s.Model s.resolve := by
  rw [resolve_eq_fill]
  exact hs.model_fill _

end Fill

theorem admits_ofShape {p : Shape Class} {f g : Class → Ty}
    (h : ∀ c ∈ p.parts, (f c).Admits (g c)) :
    (Ty.ofShape (p.map f)).Admits (Ty.ofShape (p.map g)) := by
  have all {cs : List Class} (h : ∀ c ∈ cs, (f c).Admits (g c)) :
      Ty.AdmitsAll (cs.map f) (cs.map g) := by
    rw [Ty.admitsAll_iff, List.forall₂_map_left_iff, List.forall₂_map_right_iff]
    exact List.forall₂_same.mpr h
  cases p with
  | arrow ps r =>
    obtain ⟨result, params⟩ := List.forall_mem_cons.mp h
    exact ⟨all params, result⟩
  | tuple ts => exact all h
  | option t => exact h t List.mem_cons_self
  | array t => exact h t List.mem_cons_self
  | _ => exact .refl _

/-- What a class resolves to is open where the readings of the store differ. -/
theorem Model.resolve_admits (h : s.Model φ) (v : Class) : (s.resolve v).Admits (φ v) := by
  rw [resolve]
  generalize s.size = depth
  induction depth generalizing v with
  | zero => exact Ty.any_admits _
  | succ depth ih =>
    rw [resolveWithin]
    by_cases any : s.shape v = .any
    · rw [any]
      exact Ty.any_admits _
    · rw [h.shape any]
      exact admits_ofShape fun c _ => ih c

section Complete

variable {path : List Class}

/-- The classes around a class are fewer than all classes. -/
theorem Wf.length_lt_of_chain (hs : s.Wf) (ha : a < s.size)
    (chain : (a :: path).Pairwise s.Inside) : path.length < s.size := by
  have nodup : ((a :: path).map s.find).Nodup :=
    List.pairwise_map.mpr (chain.imp fun inside => hs.find_ne_of_inside inside)
  have bounded : (a :: path).map s.find ⊆ List.range s.size := by
    intro v hv
    obtain ⟨u, hu, rfl⟩ := List.mem_map.mp hv
    refine List.mem_range.mpr (hs.find_lt ?_)
    rcases List.mem_cons.mp hu with rfl | hu
    · exact ha
    · have inside := (List.pairwise_cons.mp chain).1 u hu
      obtain ⟨_, _, q, hq, _⟩ := Relation.TransGen.tail'_iff.mp inside
      refine hs.lt_of_shape_ne fun any => ?_
      simp [any, Shape.parts] at hq
  have length := (nodup.subperm bounded).length_le
  simp at length
  omega

/-- Readings survive the unification of parts, one pair after the other. -/
private theorem unifyParts_complete
    (ih : ∀ (c d : Class) (s : Store), s.Wf → c < s.size → d < s.size → s.Model φ → φ c = φ d →
      (c :: a :: path).Pairwise s.Inside → n + (path.length + 1) = s.size →
      ∃ t, unifyWithin n c d s = .ok () t ∧ t.Model φ)
    (pairs : List (Class × Class)) (hs : s.Wf) (model : s.Model φ)
    (bounded : ∀ x ∈ pairs, x.1 < s.size ∧ x.2 < s.size) (eqs : ∀ x ∈ pairs, φ x.1 = φ x.2)
    (parts : ∀ x ∈ pairs, s.PartOf x.1 a) (chain : (a :: path).Pairwise s.Inside)
    (fuel : n + (path.length + 1) = s.size) :
    ∃ t, pairs.forM (fun x => unifyWithin n x.1 x.2) s = .ok () t ∧ t.Model φ := by
  induction pairs generalizing s with
  | nil => exact ⟨s, rfl, model⟩
  | cons x pairs tail =>
    obtain ⟨hx, rest⟩ := List.forall_mem_cons.mp bounded
    obtain ⟨eq, eqs⟩ := List.forall_mem_cons.mp eqs
    obtain ⟨part, parts⟩ := List.forall_mem_cons.mp parts
    have longer : (x.1 :: a :: path).Pairwise s.Inside := by
      refine List.pairwise_cons.mpr ⟨fun u hu => ?_, chain⟩
      rcases List.mem_cons.mp hu with rfl | hu
      · exact .single part
      · exact .head part ((List.pairwise_cons.mp chain).1 u hu)
    obtain ⟨u, hu, model⟩ := ih x.1 x.2 s hs hx.1 hx.2 model eq longer fuel
    have first := unifyWithin_ok hs hx.1 hx.2 hu
    obtain ⟨t, ht, model⟩ := tail first.wf model (first.size.symm ▸ rest) eqs
      (fun y hy => first.le.partOf (parts y hy)) (chain.imp first.le.inside)
      (fuel.trans first.size.symm)
    refine ⟨t, ?_, model⟩
    change EStateM.bind (unifyWithin n x.1 x.2) (fun _ => pairs.forM _) s = _
    rw [EStateM.bind, hu]
    exact ht

/-- Classes that some reading makes equal are unified, and the reading stays one. The `path` holds
the classes around `a`: they are all different, so the depth is never used up. -/
theorem unifyWithin_complete (hs : s.Wf) (ha : a < s.size) (hb : b < s.size) (model : s.Model φ)
    (eq : φ a = φ b) (chain : (a :: path).Pairwise s.Inside) (fuel : n + path.length = s.size) :
    ∃ t, unifyWithin n a b s = .ok () t ∧ t.Model φ := by
  induction n generalizing a b s path with
  | zero =>
    have := hs.length_lt_of_chain ha chain
    omega
  | succ n ih =>
    have free {u v : Class} (hv : v < s.size) (ne : s.find u ≠ s.find v) (eq : φ u = φ v) :
        ¬ s.occurs (s.find u) (s.find v) = true := by
      rw [hs.occurs_iff (hs.find_find u) (hs.find_lt hv), hs.find_find]
      rintro (same | inside)
      · exact ne same.symm
      · have lt := model.sizeOf_lt_of_inside inside
        rw [model.find, model.find, eq] at lt
        exact Nat.lt_irrefl _ lt
    have leaders : φ (s.find a) = φ (s.find b) := by rw [model.find, model.find, eq]
    have la := hs.find_lt ha
    have lb := hs.find_lt hb
    by_cases same : s.find a = s.find b
    · exact ⟨_, unifyWithin_same same, model.same (record_same ..)⟩
    by_cases openA : s.shape (s.find a) = .any <;> by_cases openB : s.shape (s.find b) = .any
    · exact ⟨_, unifyWithin_open same openA openB, model.merge hs la lb leaders⟩
    · rw [unifyWithin_open_left same openA openB, if_neg (free hb same eq)]
      have note := record_same .absorb (s.find a) (s.find b) "" s
      exact ⟨_, rfl, (model.same note).merge (note.wf hs) (note.size ▸ la) (note.size ▸ lb) leaders⟩
    · rw [unifyWithin_open_right same openA openB, if_neg (free ha (Ne.symm same) eq.symm)]
      have note := record_same .absorb (s.find b) (s.find a) "" s
      exact ⟨_, rfl, (model.same note).merge (note.wf hs) (note.size ▸ la) (note.size ▸ lb) leaders⟩
    · have shapes : (s.shape (s.find a)).map φ = (s.shape (s.find b)).map φ := by
        apply Ty.ofShape_injective
        rw [← model.shape openA, ← model.shape openB, leaders]
      obtain ⟨agrees, eqs⟩ := Shape.agrees_of_map_eq shapes
      have note := noteParts_same (s.find a) (s.find b) (s.shape (s.find a)) s
      have bounded : ∀ x ∈ (s.shape (s.find a)).parts.zip (s.shape (s.find b)).parts,
          x.1 < s.size ∧ x.2 < s.size := by
        intro x hx
        have mem := List.of_mem_zip hx
        exact ⟨hs.parts_lt mem.1, hs.parts_lt mem.2⟩
      rw [← note.size] at bounded
      have parts : ∀ x ∈ (s.shape (s.find a)).parts.zip (s.shape (s.find b)).parts,
          s.PartOf x.1 a := by
        intro x hx
        exact ⟨x.1, hs.shape_find a ▸ (List.of_mem_zip hx).1, rfl⟩
      obtain ⟨u, hu, umodel⟩ := unifyParts_complete
        (fun c d s hs hc hd model eq chain fuel => ih hs hc hd model eq chain fuel)
        _ (note.wf hs) (model.same note) bounded eqs (note.partOf ▸ parts)
        (by simpa only [Inside, note.partOf] using chain) (by rw [note.size]; omega)
      obtain ⟨wf, _, cells, _⟩ :=
        unifyParts_ok (fun _ _ _ _ hs ha hb => unifyWithin_ok hs ha hb) _ (note.wf hs) bounded hu
      rw [unifyWithin_known same openA openB, if_pos agrees, EStateM.bind, hu]
      have size : u.size = s.size := congrArg Array.size (cells.trans note.cells)
      exact ⟨_, rfl, umodel.merge wf (size ▸ la) (size ▸ lb) leaders⟩

end Complete

end Store

end Ordinance
