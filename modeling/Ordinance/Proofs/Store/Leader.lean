import Ordinance.Proofs.Store.Termination

namespace Ordinance.Store

variable {s t u : Store} {a b v : Class} {n : Nat}

section Merge

/-- The second class leads, unless it is open and the first is not. -/
theorem Wf.find_merge_left (hs : s.Wf) (ha : a < s.size) : (s.merge a b).find a =
    if s.shape b = .any ∧ s.shape a ≠ .any then s.find a else s.find b := by
  have found : s.leaders[a]? = some (s.find a) := by
    have lt : a < s.leaders.size := hs.size_leaders.symm ▸ ha
    simp [find, lt]
  have isAny (p : Shape Class) : p.isAny = true ↔ p = .any := by cases p <;> simp [Shape.isAny]
  simp only [Store.merge, hs.shape_find]
  by_cases leads : s.shape b = .any ∧ s.shape a ≠ .any
  · have first : ((s.shape b).isAny && !(s.shape a).isAny) = true := by
      simp [Bool.eq_false_iff, isAny, leads]
    rw [if_pos leads, if_pos first, find, Array.getElem?_map, found]
    exact ite_self _
  · have second : ¬ ((s.shape b).isAny && !(s.shape a).isAny) = true := by
      simpa [Bool.eq_false_iff, isAny] using leads
    rw [if_neg leads, if_neg second, find, Array.getElem?_map, found]
    exact if_pos rfl

/-- Only the members of the two classes have got another leader. -/
theorem Wf.find_merge_cases (hs : s.Wf) (ha : a < s.size) (hb : b < s.size) (v : Class) :
    (s.merge a b).find v = s.find v ∨ (s.merge a b).find v = (s.merge a b).find a := by
  rcases hs.merge_joins ha hb with joins | joins
  · by_cases follows : s.find v = s.find b
    · right
      rw [joins.find, joins.find, if_pos follows, ite_self]
    · exact .inl (by rw [joins.find, if_neg follows])
  · by_cases follows : s.find v = s.find a
    · right
      rw [joins.find, joins.find, if_pos follows, if_pos rfl]
    · exact .inl (by rw [joins.find, if_neg follows])

end Merge

/-- The parts of two classes have been unified, and now the classes themselves can be. What has
changed is inside them. -/
structure Prepared (s u : Store) (a b : Class) : Prop where
  wf : u.Wf
  le : s.Le u
  cells : u.cells = s.cells
  joinable : u.Joinable a b
  changes (v : Class) : u.find v = s.find v ∨ u.Inside v a

/-- A unification that has succeeded: the last thing it did, if anything, was to merge the two. -/
inductive Merged (s : Store) (a b : Class) : Store → Prop
  | same {t : Store} : s.find a = s.find b → s.SameClasses t → Merged s a b t
  | merge {u : Store} : s.find a ≠ s.find b → s.Prepared u a b →
      Merged s a b (u.merge (s.find a) (s.find b))

namespace Prepared

theorem of_same (same : s.SameClasses u) (hs : s.Wf) (joinable : s.Joinable a b) :
    s.Prepared u a b where
  wf := same.wf hs
  le := same.le
  cells := same.cells
  joinable := same.joinable joinable
  changes v := .inl (by rw [same.find])

theorem size (h : s.Prepared u a b) : u.size = s.size := congrArg Array.size h.cells

theorem find_left (h : s.Prepared u a b) : u.find a = s.find a :=
  (h.changes a).resolve_right (h.wf.inside_irrefl a)

theorem find_right (h : s.Prepared u a b) : u.find b = s.find b :=
  (h.changes b).resolve_right h.joinable.not_contains

/-- The cell of the merged class is chosen between the cells that the two had at first. -/
theorem cell_merge (h : s.Prepared u a b) (hs : s.Wf) (ha : a < s.size) :
    (u.merge (s.find a) (s.find b)).cell (s.find a) =
      if s.shape b = .any ∧ s.shape a ≠ .any then s.cell a else s.cell b := by
  have leaderA : u.find (s.find a) = s.find a := (h.le.find (hs.find_find a)).trans h.find_left
  have leaderB : u.find (s.find b) = s.find b := (h.le.find (hs.find_find b)).trans h.find_right
  have shapeA : u.shape (s.find a) = s.shape a := by
    rw [shape, cell, leaderA, h.cells, shape, cell]
  have shapeB : u.shape (s.find b) = s.shape b := by
    rw [shape, cell, leaderB, h.cells, shape, cell]
  have lt : s.find a < u.size := h.size.symm ▸ hs.find_lt ha
  have cells : (u.merge (s.find a) (s.find b)).cells = s.cells := h.cells
  rw [cell, cells, h.wf.find_merge_left lt, leaderA, leaderB, shapeA, shapeB]
  split
  · rfl
  · rfl

end Prepared

/-- Nothing is changed by a unification but the class and what is inside it. -/
theorem Merged.changes (h : s.Merged a b t) (hs : s.Wf) (ha : a < s.size) (hb : b < s.size)
    (v : Class) : t.find v = s.find v ∨ t.find v = t.find a ∨ t.Inside v a := by
  cases h with
  | same _ same => exact .inl (by rw [same.find])
  | @merge u ne prepared =>
    have la : s.find a < u.size := prepared.size.symm ▸ hs.find_lt ha
    have lb : s.find b < u.size := prepared.size.symm ▸ hs.find_lt hb
    have leaderA : u.find (s.find a) = u.find a := prepared.le.find (hs.find_find a)
    have leaderB : u.find (s.find b) = u.find b := prepared.le.find (hs.find_find b)
    obtain ⟨-, le, -, -⟩ := prepared.wf.merge la lb
      (prepared.joinable.congr prepared.wf leaderA leaderB)
    rcases prepared.wf.find_merge_cases la lb v with kept | joined
    · rcases prepared.changes v with before | inside
      · exact .inl (kept.trans before)
      · exact .inr (.inr (le.inside inside))
    · exact .inr (.inl (joined.trans (le.find leaderA)))

/-- Parts of a class, unified one pair after the other, change what is inside it only. -/
theorem unifyParts_changes
    (ih : ∀ (a b : Class) (s t : Store), s.Wf → a < s.size → b < s.size →
      unifyWithin n a b s = .ok () t → s.Merged a b t)
    (pairs : List (Class × Class)) (hs : s.Wf) (bounded : ∀ x ∈ pairs, x.1 < s.size ∧ x.2 < s.size)
    (parts : ∀ x ∈ pairs, s.PartOf x.1 a)
    (run : pairs.forM (fun x => unifyWithin n x.1 x.2) s = .ok () t) (v : Class) :
    t.find v = s.find v ∨ t.Inside v a := by
  induction pairs generalizing s with
  | nil =>
    cases run
    exact .inl rfl
  | cons x pairs tail =>
    obtain ⟨hx, bounded⟩ := List.forall_mem_cons.mp bounded
    obtain ⟨part, parts⟩ := List.forall_mem_cons.mp parts
    change EStateM.bind (unifyWithin n x.1 x.2) (fun _ => pairs.forM _) s = _ at run
    rw [EStateM.bind] at run
    split at run
    next u first =>
      have unified := unifyWithin_ok hs hx.1 hx.2 first
      rw [← unified.size] at bounded
      have later := tail unified.wf bounded (fun y hy => unified.le.partOf (parts y hy)) run
      obtain ⟨-, le, -, -⟩ :=
        unifyParts_ok (fun _ _ _ _ => unifyWithin_ok) pairs unified.wf bounded run
      -- What the first pair changed is its own class, or inside that; both are inside `a`.
      have part : u.PartOf x.1 a := unified.le.partOf part
      rcases later with kept | inside
      · rcases (ih _ _ _ _ hs hx.1 hx.2 first).changes hs hx.1 hx.2 v with before | same | inside
        · exact .inl (kept.trans before)
        · exact .inr (le.inside (unified.wf.inside_congr_left same.symm (.single part)))
        · exact .inr (le.inside (inside.tail part))
      · exact .inr inside
    next => cases run

theorem Prepared.of_parts
    (ih : ∀ (a b : Class) (s t : Store), s.Wf → a < s.size → b < s.size →
      unifyWithin n a b s = .ok () t → s.Merged a b t)
    (hs : s.Wf) (knownA : s.shape (s.find a) ≠ .any) (knownB : s.shape (s.find b) ≠ .any)
    (agrees : (s.shape (s.find a)).agrees (s.shape (s.find b)) = true)
    (run : ((s.shape (s.find a)).parts.zip (s.shape (s.find b)).parts).forM
      (fun x => unifyWithin n x.1 x.2)
      (s.noteParts (s.find a) (s.find b) (s.shape (s.find a))) = .ok () u) :
    s.Prepared u a b := by
  have same := noteParts_same (s.find a) (s.find b) (s.shape (s.find a)) s
  have bounded := fun x hx => (hs.parts_noted (a := a) (b := b) (x := x) hx).1
  have parts := fun x hx => (hs.parts_noted (a := a) (b := b) (x := x) hx).2
  obtain ⟨wf, le, cells, finds⟩ :=
    unifyParts_ok (fun _ _ _ _ => unifyWithin_ok) _ (same.wf hs) bounded run
  have le := same.le.trans (same.wf hs) le
  refine ⟨wf, le, cells.trans same.cells,
    hs.joinable_of_parts wf le knownA knownB agrees finds, fun v => ?_⟩
  rw [← same.find]
  exact unifyParts_changes ih _ (same.wf hs) bounded parts run v

theorem unifyWithin_merged (hs : s.Wf) (ha : a < s.size) (hb : b < s.size)
    (run : unifyWithin n a b s = .ok () t) : s.Merged a b t := by
  induction n generalizing a b s t with
  | zero => cases run
  | succ n ih =>
    rw [unifyWithin_succ] at run
    have meets := s.meets_encounter a b
    generalize s.encounter a b = e at meets run
    cases meets with
    | same eq =>
      cases run
      exact .same eq (record_same _ _ _ _ s)
    | holes ne openA openB =>
      cases run
      exact .merge ne (.of_same ⟨rfl, rfl⟩ hs (hs.joinable_of_open openA openB))
    | left ne openA knownB =>
      dsimp only at run
      split at run
      · cases run
      · next free =>
        cases run
        exact .merge ne (.of_same (record_same _ _ _ _ s) hs
          (hs.joinable_of_not_occurs hb openA free))
    | right ne knownA openB =>
      dsimp only at run
      split at run
      · cases run
      · next free =>
        cases run
        exact .merge ne (.of_same (record_same _ _ _ _ s) hs
          (hs.joinable_of_not_occurs ha openB free).symm)
    | parts ne knownA knownB agrees =>
      dsimp only at run
      rw [EStateM.bind] at run
      split at run
      · next u inner =>
        cases run
        exact .merge ne (.of_parts (fun _ _ _ _ => ih) hs knownA knownB agrees inner)
      · cases run
    | clash => cases run

/-- Two classes that become one go on with one of the cells they had: the second's, unless that was
open and the first was known. What their parts became has no say in it. -/
theorem unify_cell (h : s.Reachable) (ha : a < s.size) (hb : b < s.size)
    (apart : s.find a ≠ s.find b) (run : s.unify a b = (.ok (), t)) :
    t.find a = t.find b ∧ ∀ v, t.find v = t.find a →
      t.cell v = if s.shape b = .any ∧ s.shape a ≠ .any then s.cell a else s.cell b := by
  have within := unify_eq_ok.mp run
  have unified := unifyWithin_ok h.wf ha hb within
  refine ⟨unified.find, fun v same => ?_⟩
  cases unifyWithin_merged h.wf ha hb within with
  | same eq _ => exact absurd eq apart
  | @merge u _ prepared =>
    have leader := same.trans (unified.le.find (h.wf.find_find a)).symm
    rw [← prepared.cell_merge h.wf ha, cell, cell, leader]

section Example

/-- The place in a text that some characters from `first` on take up. -/
private def place (first : Nat) : Span := ⟨0, first, first + 4⟩

/-- A hole that stands twice in a pair, a pair of a list of another hole and a list of integers, and
a third hole; each from a place of its own. -/
def placed : Store :=
  let hole := (alloc .any (place 0) (empty false)).2
  let twice := (alloc (.tuple [0, 0]) (place 10) hole).2
  let lists := (load (place 20) (.tuple [.array .any, .array .int]) twice).2
  (alloc .any (place 30) lists).2

theorem placed_reachable : placed.Reachable :=
  .alloc _ _ (.load _ _ (.alloc _ _ (.alloc _ _ (.empty false) (by decide)) (by decide)))
    (by decide)

theorem exists_of_isOk (ok : (s.unify a b).1.isOk = true) : ∃ t, s.unify a b = (.ok (), t) := by
  rcases unify_cases a b s with ⟨t, eq, -⟩ | ⟨_, _, _, _, eq, -, -⟩
  · exact ⟨t, eq⟩
  · simp [eq, Except.isOk, Except.toBool] at ok

/-- The pairs go on with the cell of the second one, though their parts were merged first; a pair and
a hole with that of the pair, from either side. -/
theorem placed_cell : placed.Reachable ∧
    (∃ t, placed.unify 1 6 = (.ok (), t) ∧ t.find 1 = t.find 6 ∧
      t.cell 1 = ⟨.tuple [3, 5], place 20⟩ ∧ t.cell 6 = ⟨.tuple [3, 5], place 20⟩) ∧
    (∃ t, placed.unify 1 7 = (.ok (), t) ∧ t.cell 7 = ⟨.tuple [0, 0], place 10⟩) ∧
    ∃ t, placed.unify 7 1 = (.ok (), t) ∧ t.cell 7 = ⟨.tuple [0, 0], place 10⟩ := by
  have lt : 1 < placed.size ∧ 6 < placed.size ∧ 7 < placed.size := by decide +kernel
  refine ⟨placed_reachable, ?_, ?_, ?_⟩
  · obtain ⟨t, run⟩ := exists_of_isOk (s := placed) (a := 1) (b := 6) (by decide +kernel)
    obtain ⟨find, cell⟩ := unify_cell placed_reachable lt.1 lt.2.1 (by decide +kernel) run
    have kept : (if placed.shape 6 = .any ∧ placed.shape 1 ≠ .any then placed.cell 1
        else placed.cell 6) = ⟨.tuple [3, 5], place 20⟩ := by decide +kernel
    rw [kept] at cell
    exact ⟨t, run, find, cell 1 rfl, cell 6 find.symm⟩
  · obtain ⟨t, run⟩ := exists_of_isOk (s := placed) (a := 1) (b := 7) (by decide +kernel)
    obtain ⟨find, cell⟩ := unify_cell placed_reachable lt.1 lt.2.2 (by decide +kernel) run
    have kept : (if placed.shape 7 = .any ∧ placed.shape 1 ≠ .any then placed.cell 1
        else placed.cell 7) = ⟨.tuple [0, 0], place 10⟩ := by decide +kernel
    exact ⟨t, run, (cell 7 find.symm).trans kept⟩
  · obtain ⟨t, run⟩ := exists_of_isOk (s := placed) (a := 7) (b := 1) (by decide +kernel)
    obtain ⟨find, cell⟩ := unify_cell placed_reachable lt.2.2 lt.1 (by decide +kernel) run
    have kept : (if placed.shape 1 = .any ∧ placed.shape 7 ≠ .any then placed.cell 7
        else placed.cell 1) = ⟨.tuple [0, 0], place 10⟩ := by decide +kernel
    exact ⟨t, run, (cell 7 rfl).trans kept⟩

end Example

end Ordinance.Store
