import Ordinance.Proofs.Basic
import Ordinance.Proofs.Store.Merge
import Ordinance.Store.Unify

namespace Ordinance

theorem Shape.map_eq_of_agrees {α β : Type} {f : α → β} {p q : Shape α} (h : p.agrees q = true)
    (parts : ∀ x ∈ p.parts.zip q.parts, f x.1 = f x.2) : p.map f = q.map f := by
  cases p with
  | arrow ps r =>
    cases q with
    | arrow qs s =>
      obtain ⟨result, params⟩ := List.forall_mem_cons.mp parts
      have length : ps.length = qs.length := by simpa [agrees] using h
      rw [Shape.map, Shape.map, map_eq_iff_zip.mpr ⟨length, params⟩, result]
    | _ => simp [agrees] at h
  | tuple ts =>
    cases q with
    | tuple us =>
      have length : ts.length = us.length := by simpa [agrees] using h
      rw [Shape.map, Shape.map, map_eq_iff_zip.mpr ⟨length, parts⟩]
    | _ => simp [agrees] at h
  | _ => cases q <;> simp_all [agrees, Shape.map, Shape.parts]

namespace Store

variable {s t : Store} {a b : Class} {n : Nat}

/-- Classes do not depend on the steps that are noted down. -/
structure SameClasses (s t : Store) : Prop where
  cells : t.cells = s.cells
  leaders : t.leaders = s.leaders

namespace SameClasses

theorem find (h : s.SameClasses t) : t.find = s.find := by
  funext v
  simp [Store.find, h.leaders]

theorem shape (h : s.SameClasses t) : t.shape = s.shape := by
  funext v
  simp [Store.shape, cell, h.find, h.cells]

theorem size (h : s.SameClasses t) : t.size = s.size := by simp [Store.size, h.cells]

theorem partOf (h : s.SameClasses t) : t.PartOf = s.PartOf := by
  funext p u
  simp [PartOf, h.find, h.shape]

theorem wf (h : s.SameClasses t) (hs : s.Wf) : t.Wf where
  size_leaders := by rw [h.leaders, h.size, hs.size_leaders]
  find_lt hv := by
    rw [h.size] at hv ⊢
    exact h.find ▸ hs.find_lt hv
  find_find := by simpa only [h.find] using hs.find_find
  parts_lt hp := by
    rw [h.shape] at hp
    exact h.size ▸ hs.parts_lt hp
  wellFounded := h.partOf ▸ hs.wellFounded

theorem le (h : s.SameClasses t) : s.Le t :=
  ⟨Nat.le_of_eq h.size.symm, fun eq => by simpa only [h.find] using eq, fun _ => by rw [h.shape]⟩

theorem joinable (h : s.SameClasses t) (hab : s.Joinable a b) : t.Joinable a b where
  agree := by simpa only [h.shape, h.find] using hab.agree
  not_inside := by simpa only [Inside, h.partOf] using hab.not_inside
  not_contains := by simpa only [Inside, h.partOf] using hab.not_contains

end SameClasses

theorem record_same (action : Action) (left right : Class) (detail : String) (s : Store) :
    s.SameClasses (s.record action left right detail) := by
  unfold record
  split <;> exact ⟨rfl, rfl⟩

theorem absorb_eq (hole other : Class) (s : Store) :
    absorb hole other s =
      if s.occurs hole other then .error .infinite (s.record .occursCheck hole other "")
      else .ok () (s.record .absorb hole other "") := by
  change (if s.occurs hole other then _ else _ : Merging Unit) s = _
  split <;> rfl

/-- The step that takes a known shape apart, noted if the shape has parts to compare. -/
def noteParts (a b : Class) (p : Shape Class) (s : Store) : Store :=
  match decomposed p with
  | some detail => s.record .decompose a b detail
  | none => s

theorem unifyWithin_same (h : s.find a = s.find b) :
    unifyWithin (n + 1) a b s = .ok () (s.record .identity (s.find a) (s.find b) "") := by
  unfold unifyWithin
  change (if s.find a = s.find b then _ else _ : Merging Unit) s = _
  rw [if_pos h]
  rfl

theorem unifyWithin_open (ne : s.find a ≠ s.find b) (ha : s.shape (s.find a) = .any)
    (hb : s.shape (s.find b) = .any) :
    unifyWithin (n + 1) a b s = .ok () (s.merge (s.find a) (s.find b)) := by
  unfold unifyWithin
  change (if s.find a = s.find b then _ else _ : Merging Unit) s = _
  rw [if_neg ne, ha, hb]
  rfl

theorem unifyWithin_open_left (ne : s.find a ≠ s.find b) (ha : s.shape (s.find a) = .any)
    (hb : s.shape (s.find b) ≠ .any) :
    unifyWithin (n + 1) a b s =
      if s.occurs (s.find a) (s.find b) then
        .error .infinite (s.record .occursCheck (s.find a) (s.find b) "")
      else .ok () ((s.record .absorb (s.find a) (s.find b) "").merge (s.find a) (s.find b)) := by
  have enter : unifyWithin (n + 1) a b s =
      EStateM.bind (absorb (s.find a) (s.find b))
        (fun _ => modify (·.merge (s.find a) (s.find b))) s := by
    unfold unifyWithin
    change (if s.find a = s.find b then _ else _ : Merging Unit) s = _
    rw [if_neg ne, ha]
    cases hq : s.shape (s.find b)
    case any => exact absurd hq hb
    all_goals rfl
  rw [enter, EStateM.bind, absorb_eq]
  by_cases h : s.occurs (s.find a) (s.find b)
  · rw [if_pos h, if_pos h]
  · rw [if_neg h, if_neg h]
    rfl

theorem unifyWithin_open_right (ne : s.find a ≠ s.find b) (ha : s.shape (s.find a) ≠ .any)
    (hb : s.shape (s.find b) = .any) :
    unifyWithin (n + 1) a b s =
      if s.occurs (s.find b) (s.find a) then
        .error .infinite (s.record .occursCheck (s.find b) (s.find a) "")
      else .ok () ((s.record .absorb (s.find b) (s.find a) "").merge (s.find a) (s.find b)) := by
  have enter : unifyWithin (n + 1) a b s =
      EStateM.bind (absorb (s.find b) (s.find a))
        (fun _ => modify (·.merge (s.find a) (s.find b))) s := by
    unfold unifyWithin
    change (if s.find a = s.find b then _ else _ : Merging Unit) s = _
    rw [if_neg ne, hb]
    cases hp : s.shape (s.find a)
    case any => exact absurd hp ha
    all_goals rfl
  rw [enter, EStateM.bind, absorb_eq]
  by_cases h : s.occurs (s.find b) (s.find a)
  · rw [if_pos h, if_pos h]
  · rw [if_neg h, if_neg h]
    rfl

private theorem unifyWithin_enter (ne : s.find a ≠ s.find b) (ha : s.shape (s.find a) ≠ .any)
    (hb : s.shape (s.find b) ≠ .any) :
    unifyWithin (n + 1) a b s =
      (if (s.shape (s.find a)).agrees (s.shape (s.find b)) then do
        if let some detail := decomposed (s.shape (s.find a)) then
          modify (record .decompose (s.find a) (s.find b) detail)
        ((s.shape (s.find a)).parts.zip (s.shape (s.find b)).parts).forM
          fun x => unifyWithin n x.1 x.2
        modify (·.merge (s.find a) (s.find b))
      else do
        modify (record .error (s.find a) (s.find b) "")
        throw .shape : Merging Unit) s := by
  rw [unifyWithin]
  change (if s.find a = s.find b then _ else _ : Merging Unit) s = _
  rw [if_neg ne]
  generalize s.shape (s.find a) = p at ha ⊢
  generalize s.shape (s.find b) = q at hb ⊢
  cases p <;> cases q <;> first | contradiction | rfl

theorem unifyWithin_known (ne : s.find a ≠ s.find b) (ha : s.shape (s.find a) ≠ .any)
    (hb : s.shape (s.find b) ≠ .any) :
    unifyWithin (n + 1) a b s =
      if (s.shape (s.find a)).agrees (s.shape (s.find b)) then
        EStateM.bind
          (((s.shape (s.find a)).parts.zip (s.shape (s.find b)).parts).forM
            fun x => unifyWithin n x.1 x.2)
          (fun _ => modify (·.merge (s.find a) (s.find b)))
          (s.noteParts (s.find a) (s.find b) (s.shape (s.find a)))
      else .error .shape (s.record .error (s.find a) (s.find b) "") := by
  rw [unifyWithin_enter ne ha hb]
  split
  · simp only [noteParts]
    cases decomposed (s.shape (s.find a)) <;> rfl
  · rfl

theorem noteParts_same (a b : Class) (p : Shape Class) (s : Store) :
    s.SameClasses (s.noteParts a b p) := by
  unfold noteParts
  split
  · exact record_same _ _ _ _ _
  · exact ⟨rfl, rfl⟩

/-- The search for a part is deep enough to find it. -/
theorem Wf.occursWithin_iff (hs : s.Wf) {rank : Class → Nat}
    (descends : ∀ p u, s.PartOf p u → rank p < rank u) {part : Class}
    (leader : s.find part = part) (depth : Nat) (v : Class) (deep : rank v < depth) :
    s.occursWithin part depth v = true ↔ s.find v = part ∨ s.Inside part v := by
  induction depth generalizing v with
  | zero => exact absurd deep (Nat.not_lt_zero _)
  | succ depth ih =>
    have below (p : Class) (hp : p ∈ (s.shape v).parts) :
        s.occursWithin part depth p = true ↔ s.find p = part ∨ s.Inside part p :=
      ih p (Nat.lt_of_lt_of_le (descends p v ⟨p, hp, rfl⟩) (Nat.le_of_lt_succ deep))
    simp only [occursWithin, Bool.or_eq_true, beq_iff_eq, List.any_eq_true]
    refine or_congr_right ⟨?_, ?_⟩
    · rintro ⟨p, hp, found⟩
      rcases (below p hp).mp found with eq | inside
      · exact .single ⟨p, hp, eq.trans leader.symm⟩
      · exact inside.tail ⟨p, hp, rfl⟩
    · intro inside
      cases inside with
      | single hp =>
        obtain ⟨q, hq, eq⟩ := hp
        exact ⟨q, hq, (below q hq).mpr (.inl (eq.trans leader))⟩
      | tail inside hp =>
        obtain ⟨q, hq, eq⟩ := hp
        exact ⟨q, hq, (below q hq).mpr (.inr (hs.inside_congr_right eq.symm inside))⟩

theorem Wf.occurs_iff (hs : s.Wf) {part v : Class} (leader : s.find part = part)
    (hv : v < s.size) : s.occurs part v = true ↔ s.find v = part ∨ s.Inside part v := by
  obtain ⟨rank, bounded, descends⟩ := hs.exists_rank
  exact hs.occursWithin_iff descends leader _ v (bounded v hv)

/-- A hole can be filled with what it is found to be no part of. -/
theorem Wf.joinable_of_not_occurs (hs : s.Wf) (hb : b < s.size) (ha : s.shape (s.find a) = .any)
    (h : ¬ s.occurs (s.find a) (s.find b) = true) : s.Joinable a b := by
  refine .of_open (hs.shape_find a ▸ ha) fun inside => h ?_
  refine (hs.occurs_iff (hs.find_find a) (hs.find_lt hb)).mpr (.inr ?_)
  exact hs.inside_congr_left (hs.find_find a).symm
    (hs.inside_congr_right (hs.find_find b).symm inside)

/-- Two holes are no parts of each other. -/
theorem Wf.joinable_of_open (hs : s.Wf) (ha : s.shape (s.find a) = .any)
    (hb : s.shape (s.find b) = .any) : s.Joinable a b := by
  refine .of_open (hs.shape_find a ▸ ha) fun inside => ?_
  obtain ⟨p, _, q, hq, _⟩ := Relation.TransGen.tail'_iff.mp inside
  rw [← hs.shape_find, hb] at hq
  simp [Shape.parts] at hq

/-- Known classes can be one as soon as their parts are. -/
theorem Wf.joinable_of_parts {u : Store} (hs : s.Wf) (hu : u.Wf) (le : s.Le u)
    (ha : s.shape (s.find a) ≠ .any) (hb : s.shape (s.find b) ≠ .any)
    (agrees : (s.shape (s.find a)).agrees (s.shape (s.find b)) = true)
    (finds : ∀ x ∈ (s.shape (s.find a)).parts.zip (s.shape (s.find b)).parts,
      u.find x.1 = u.find x.2) : u.Joinable a b := by
  refine .of_agree hu ?_
  have same := Shape.map_eq_of_agrees agrees finds
  rw [hs.shape_find] at ha hb
  rwa [hs.shape_find, hs.shape_find, le.shape ha, le.shape hb] at same

/-- What a successful unification of two classes has done. -/
structure Unified (s t : Store) (a b : Class) : Prop where
  wf : t.Wf
  le : s.Le t
  cells : t.cells = s.cells
  find : t.find a = t.find b

theorem Unified.size (h : Unified s t a b) : t.size = s.size := by simp [Store.size, h.cells]

/-- The parts of two classes, one pair after the other. -/
theorem unifyParts_ok
    (ih : ∀ (a b : Class) (s t : Store), s.Wf → a < s.size → b < s.size →
      unifyWithin n a b s = .ok () t → Unified s t a b)
    (pairs : List (Class × Class)) (hs : s.Wf) (bounded : ∀ x ∈ pairs, x.1 < s.size ∧ x.2 < s.size)
    (h : pairs.forM (fun x => unifyWithin n x.1 x.2) s = .ok () t) :
    t.Wf ∧ s.Le t ∧ t.cells = s.cells ∧ ∀ x ∈ pairs, t.find x.1 = t.find x.2 := by
  induction pairs generalizing s with
  | nil =>
    cases h
    exact ⟨hs, .refl _, rfl, by simp⟩
  | cons x pairs tail =>
    change EStateM.bind (unifyWithin n x.1 x.2) (fun _ => pairs.forM _) s = _ at h
    rw [EStateM.bind] at h
    split at h
    next u hu =>
      obtain ⟨hx, rest⟩ := List.forall_mem_cons.mp bounded
      have first := ih _ _ s u hs hx.1 hx.2 hu
      rw [← first.size] at rest
      obtain ⟨wf, le, cells, finds⟩ := tail first.wf rest h
      refine ⟨wf, first.le.trans first.wf le, cells.trans first.cells, ?_⟩
      exact List.forall_mem_cons.mpr ⟨le.find first.find, finds⟩
    next => cases h

private theorem unified_of_merge {u : Store} (hs : s.Wf) (ha : a < s.size) (hb : b < s.size)
    (hu : u.Wf) (le : s.Le u) (cells : u.cells = s.cells) (joinable : u.Joinable a b) :
    Unified s (u.merge (s.find a) (s.find b)) a b := by
  have size : u.size = s.size := congrArg Array.size cells
  have joinable := joinable.congr hu (le.find (hs.find_find a)) (le.find (hs.find_find b))
  obtain ⟨wf, more, same, find⟩ :=
    hu.merge (size ▸ hs.find_lt ha) (size ▸ hs.find_lt hb) joinable
  have all := le.trans hu more
  refine ⟨wf, all, same.trans cells, ?_⟩
  rw [← all.find (hs.find_find a), ← all.find (hs.find_find b), find]

/-- Parts are unified before the classes that have them, so known classes agree when they meet; and
an open class takes in only what it is no part of. -/
theorem unifyWithin_ok (hs : s.Wf) (ha : a < s.size) (hb : b < s.size)
    (h : unifyWithin n a b s = .ok () t) : Unified s t a b := by
  induction n generalizing a b s t with
  | zero => cases h
  | succ n ih =>
    by_cases eq : s.find a = s.find b
    · rw [unifyWithin_same eq] at h
      cases h
      have same := record_same .identity (s.find a) (s.find b) "" s
      exact ⟨same.wf hs, same.le, same.cells, by rw [same.find, eq]⟩
    by_cases openA : s.shape (s.find a) = .any <;> by_cases openB : s.shape (s.find b) = .any
    · rw [unifyWithin_open eq openA openB] at h
      cases h
      exact unified_of_merge hs ha hb hs (.refl s) rfl (hs.joinable_of_open openA openB)
    · rw [unifyWithin_open_left eq openA openB] at h
      split at h
      · cases h
      · next free =>
        cases h
        have same := record_same .absorb (s.find a) (s.find b) "" s
        exact unified_of_merge hs ha hb (same.wf hs) same.le same.cells
          (same.joinable (hs.joinable_of_not_occurs hb openA free))
    · rw [unifyWithin_open_right eq openA openB] at h
      split at h
      · cases h
      · next free =>
        cases h
        have same := record_same .absorb (s.find b) (s.find a) "" s
        exact unified_of_merge hs ha hb (same.wf hs) same.le same.cells
          (same.joinable (hs.joinable_of_not_occurs ha openB free).symm)
    · rw [unifyWithin_known eq openA openB] at h
      split at h
      · next agrees =>
        rw [EStateM.bind] at h
        split at h
        · next u hu =>
          cases h
          have same := noteParts_same (s.find a) (s.find b) (s.shape (s.find a)) s
          obtain ⟨wf, le, cells, finds⟩ := unifyParts_ok (fun _ _ _ _ hs ha hb => ih hs ha hb)
            _ (same.wf hs) (fun x hx => by
              have mem := List.of_mem_zip hx
              exact same.size ▸ ⟨hs.parts_lt mem.1, hs.parts_lt mem.2⟩) hu
          have le := same.le.trans (same.wf hs) le
          exact unified_of_merge hs ha hb wf le (cells.trans same.cells)
            (hs.joinable_of_parts wf le openA openB agrees finds)
        · cases h
      · cases h

end Store

end Ordinance
