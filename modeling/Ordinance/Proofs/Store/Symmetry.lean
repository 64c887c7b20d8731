import Ordinance.Proofs.Store.Reachable

namespace Ordinance

namespace Shape

variable {α β γ : Type} {f : α → β} {g h : α → γ} {p q : Shape α}

theorem map_eq_of_map_eq (same : p.map f = q.map f) (eq : ∀ x y, f x = f y → g x = h y) :
    p.map g = q.map h := by
  cases p with
  | arrow ps r =>
    cases q with
    | arrow qs s =>
      simp only [map, arrow.injEq] at same ⊢
      exact ⟨Ordinance.map_eq_of_map_eq same.1 eq, eq _ _ same.2⟩
    | _ => simp [map] at same
  | tuple ts =>
    cases q with
    | tuple us =>
      simp only [map, tuple.injEq] at same ⊢
      exact Ordinance.map_eq_of_map_eq same eq
    | _ => simp [map] at same
  | option x =>
    cases q with
    | option y => exact congrArg option (eq x y (option.inj same))
    | _ => simp [map] at same
  | array x =>
    cases q with
    | array y => exact congrArg array (eq x y (array.inj same))
    | _ => simp [map] at same
  | _ => cases q <;> simp_all [map]

@[simp] theorem agrees_map (f : α → β) (g : α → γ) : (p.map f).agrees (q.map g) = p.agrees q := by
  cases p <;> cases q <;> simp [map, agrees]

theorem agrees_comm (p q : Shape α) : p.agrees q = q.agrees p := by
  cases p <;> cases q <;> simp [agrees, Bool.beq_comm]

end Shape

/-- What a step did, whatever the two sides read as. -/
def Step.event (x : Step) : Action × String := (x.action, x.detail)

namespace Store

variable {s t u : Store} {a b c d v w : Class} {n : Nat}

/-- The stores have the same classes, of the same structure up to equal parts, and came to them by
the same steps. The leaders of a class may differ. -/
structure Alike (s t : Store) : Prop where
  size : t.size = s.size
  find_iff {v w : Class} : t.find v = t.find w ↔ s.find v = s.find w
  shape (v : Class) : (t.shape v).map s.find = (s.shape v).map s.find
  tracing : t.tracing = s.tracing
  events : t.trace.toList.map Step.event = s.trace.toList.map Step.event

/-- The second pair of classes is the first one the other way round. -/
structure Mirrors (s : Store) (x y : Class × Class) : Prop where
  lt : x.1 < s.size ∧ x.2 < s.size
  lt' : y.1 < s.size ∧ y.2 < s.size
  fst : s.find y.1 = s.find x.2
  snd : s.find y.2 = s.find x.1

theorem Mirrors.of_le {x y : Class × Class} (h : s.Mirrors x y) (le : s.Le t) : t.Mirrors x y where
  lt := ⟨Nat.lt_of_lt_of_le h.lt.1 le.size, Nat.lt_of_lt_of_le h.lt.2 le.size⟩
  lt' := ⟨Nat.lt_of_lt_of_le h.lt'.1 le.size, Nat.lt_of_lt_of_le h.lt'.2 le.size⟩
  fst := le.find h.fst
  snd := le.find h.snd

namespace Alike

theorem refl (s : Store) : s.Alike s := ⟨rfl, Iff.rfl, fun _ => rfl, rfl, rfl⟩

theorem shape_eq (h : s.Alike t) (hs : s.Wf) (same : s.find v = s.find w) :
    (t.shape v).map s.find = (s.shape w).map s.find := by
  rw [h.shape, hs.shape_congr same]

theorem shape_eq_any (h : s.Alike t) (hs : s.Wf) (same : s.find v = s.find w) :
    t.shape v = .any ↔ s.shape w = .any := by
  rw [← Shape.map_eq_any (f := s.find), h.shape_eq hs same, Shape.map_eq_any]

/-- Classes read as the same types. -/
theorem resolveWithin (h : s.Alike t) (hs : s.Wf) (same : s.find v = s.find w) :
    t.resolveWithin n v = s.resolveWithin n w := by
  induction n generalizing v w with
  | zero => rfl
  | succ n ih =>
    have parts : (t.shape v).map (t.resolveWithin n) = (s.shape w).map (s.resolveWithin n) :=
      Shape.map_eq_of_map_eq (h.shape_eq hs same) fun x y eq => ih eq
    rw [Store.resolveWithin, Store.resolveWithin, parts]

theorem resolve (h : s.Alike t) (hs : s.Wf) (v : Class) : t.resolve v = s.resolve v := by
  rw [Store.resolve, Store.resolve, h.size, h.resolveWithin hs rfl]

/-- The same classes are found inside a class. -/
theorem occursWithin (h : s.Alike t) (hs : s.Wf) (part : s.find c = s.find a)
    (same : s.find v = s.find w) :
    t.occursWithin (t.find c) n v = s.occursWithin (s.find a) n w := by
  induction n generalizing v w with
  | zero => rfl
  | succ n ih =>
    have here : (t.find v == t.find c) = (s.find w == s.find a) := by
      rw [Bool.eq_iff_iff, beq_iff_eq, beq_iff_eq, h.find_iff, same, part]
    have parts : (t.shape v).parts.map s.find = (s.shape w).parts.map s.find := by
      simpa using congrArg Shape.parts (h.shape_eq hs same)
    have below : (t.shape v).parts.map (t.occursWithin (t.find c) n) =
        (s.shape w).parts.map (s.occursWithin (s.find a) n) :=
      map_eq_of_map_eq parts fun x y eq => ih eq
    have found := congrArg (List.any · id) below
    simp only [List.any_map, Function.id_comp] at found
    rw [Store.occursWithin, Store.occursWithin, here, found]

theorem find_find (h : s.Alike t) (ht : t.Wf) (v : Class) : s.find (t.find v) = s.find v :=
  h.find_iff.mp (ht.find_find v)

theorem occurs (h : s.Alike t) (hs : s.Wf) (ht : t.Wf) (part : s.find c = s.find a)
    (same : s.find v = s.find w) :
    t.occurs (t.find c) (t.find v) = s.occurs (s.find a) (s.find w) := by
  have leaders : s.find (t.find v) = s.find (s.find w) := by
    rw [h.find_find ht, hs.find_find, same]
  rw [Store.occurs, Store.occurs, h.size, h.occursWithin hs part leaders]

/-- The parts of a class are pairwise equal. -/
theorem parts (h : s.Alike t) (hs : s.Wf) (ht : t.Wf) (same : s.find v = s.find w) :
    List.Forall₂ (fun x y => (x < s.size ∧ y < s.size) ∧ s.find y = s.find x)
      (s.shape w).parts (t.shape v).parts := by
  have maps : (s.shape w).parts.map s.find = (t.shape v).parts.map s.find := by
    simpa using congrArg Shape.parts (h.shape_eq hs same).symm
  obtain ⟨length, eqs⟩ := map_eq_iff_zip.mp maps
  refine List.forall₂_iff_zip.mpr ⟨length, fun {x y} mem => ?_⟩
  obtain ⟨hx, hy⟩ := List.of_mem_zip mem
  exact ⟨⟨hs.parts_lt hx, h.size ▸ ht.parts_lt hy⟩, (eqs _ mem).symm⟩

theorem record (h : s.Alike t) (action : Action) (a b c d : Class) (detail : String) :
    (s.record action a b detail).Alike (t.record action c d detail) := by
  have tracing := h.tracing
  unfold Store.record
  by_cases on : s.tracing = true
  · rw [if_pos on, if_pos (tracing.trans on)]
    refine ⟨h.size, h.find_iff, h.shape, tracing, ?_⟩
    simp [h.events, Step.event]
  · rw [if_neg on, if_neg (tracing ▸ on)]
    exact h

theorem noteParts (h : s.Alike t) {p q : Shape Class} (same : decomposed p = decomposed q)
    (a b c d : Class) : (s.noteParts a b p).Alike (t.noteParts c d q) := by
  unfold Store.noteParts
  rw [same]
  cases decomposed q with
  | none => exact h
  | some detail => exact h.record .decompose a b c d detail

end Alike

section Merge

variable {lead follow : Class}

theorem Joins.find_eq_iff (h : s.Joins t lead follow) :
    t.find v = t.find w ↔ s.find v = s.find w ∨
      (s.find v = lead ∨ s.find v = follow) ∧ (s.find w = lead ∨ s.find w = follow) := by
  refine ⟨h.find_eq_cases, fun eq => ?_⟩
  rw [h.find, h.find]
  grind

/-- A joined class has the shape that one of its members had, and a known one if there is any. -/
theorem Joins.exists_shape_eq (h : s.Joins t lead follow) (hs : s.Wf) (v : Class) :
    ∃ x, t.find x = t.find v ∧ t.shape v = s.shape x ∧
      (s.shape x = .any → ∀ y, t.find y = t.find v → s.shape y = .any) := by
  by_cases joined : s.find v = lead ∨ s.find v = follow
  · refine ⟨lead, h.find_eq_iff.mpr (.inr ⟨.inl h.find_lead, joined⟩), ?_, fun any y same => ?_⟩
    · rw [h.shape]
      split
      · rfl
      · next ne => exact hs.shape_congr ((joined.resolve_right ne).trans h.find_lead.symm)
    · have member : s.find y = lead ∨ s.find y = follow := by
        rcases h.find_eq_cases same with eq | both
        · rwa [eq]
        · exact both.1
      rcases member with eq | eq
      · rwa [hs.shape_congr (eq.trans h.find_lead.symm)]
      · rw [hs.shape_congr (eq.trans h.find_follow.symm)]
        exact h.open_of_open any
  · refine ⟨v, rfl, ?_, fun any y same => ?_⟩
    · rw [h.shape, if_neg fun eq => joined (.inr eq)]
    · have eq := (h.find_eq_cases same).resolve_right fun both => joined both.2
      rwa [hs.shape_congr eq]

theorem Wf.find_merge_iff (hs : s.Wf) (ha : a < s.size) (hb : b < s.size) :
    (s.merge a b).find v = (s.merge a b).find w ↔ s.find v = s.find w ∨
      (s.find v = s.find a ∨ s.find v = s.find b) ∧
        (s.find w = s.find a ∨ s.find w = s.find b) := by
  rcases hs.merge_joins ha hb with joins | joins
  · exact joins.find_eq_iff
  · rw [joins.find_eq_iff, or_comm (a := s.find v = s.find b), or_comm (a := s.find w = s.find b)]

theorem Wf.exists_shape_merge (hs : s.Wf) (ha : a < s.size) (hb : b < s.size) (v : Class) :
    ∃ x, (s.merge a b).find x = (s.merge a b).find v ∧ (s.merge a b).shape v = s.shape x ∧
      (s.shape x = .any → ∀ y, (s.merge a b).find y = (s.merge a b).find v →
        s.shape y = .any) := by
  rcases hs.merge_joins ha hb with joins | joins
  · exact joins.exists_shape_eq hs v
  · exact joins.exists_shape_eq hs v

/-- The leaders of mirrored pairs are mirrored. -/
theorem Mirrors.leaders (m : s.Mirrors (a, b) (c, d)) (h : s.Alike t) (hs : s.Wf) (ht : t.Wf) :
    s.Mirrors (s.find a, s.find b) (t.find c, t.find d) where
  lt := ⟨hs.find_lt m.lt.1, hs.find_lt m.lt.2⟩
  lt' := by
    rw [← h.size]
    exact ⟨ht.find_lt (h.size.symm ▸ m.lt'.1), ht.find_lt (h.size.symm ▸ m.lt'.2)⟩
  fst := by
    rw [h.find_find ht, hs.find_find]
    exact m.fst
  snd := by
    rw [h.find_find ht, hs.find_find]
    exact m.snd

/-- Which of two classes is named first decides only who leads them. -/
theorem Alike.merge (h : s.Alike t) (hs : s.Wf) (ht : t.Wf) (mirrors : s.Mirrors (a, b) (c, d))
    (joinable : s.Joinable a b) : (s.merge a b).Alike (t.merge c d) := by
  obtain ⟨wf, le, -, -⟩ := hs.merge mirrors.lt.1 mirrors.lt.2 joinable
  have hc : c < t.size := h.size.symm ▸ mirrors.lt'.1
  have hd : d < t.size := h.size.symm ▸ mirrors.lt'.2
  have find_iff {v w : Class} : (t.merge c d).find v = (t.merge c d).find w ↔
      (s.merge a b).find v = (s.merge a b).find w := by
    rw [ht.find_merge_iff hc hd, hs.find_merge_iff mirrors.lt.1 mirrors.lt.2]
    simp only [h.find_iff, mirrors.fst, mirrors.snd]
    rw [or_comm (a := s.find v = s.find b), or_comm (a := s.find w = s.find b)]
  refine ⟨h.size, find_iff, fun v => ?_, h.tracing, h.events⟩
  obtain ⟨x, hx, shapeX, openX⟩ := hs.exists_shape_merge mirrors.lt.1 mirrors.lt.2 v
  obtain ⟨y, hy, shapeY, openY⟩ := ht.exists_shape_merge hc hd v
  have through : (s.merge a b).find ∘ s.find = (s.merge a b).find :=
    funext fun w => le.find (hs.find_find w)
  have read := congrArg (Shape.map (s.merge a b).find) (h.shape y)
  simp only [Shape.map_map, through] at read
  rw [shapeX, shapeY, read]
  by_cases any : s.shape y = .any
  · have open_ : s.shape x = .any :=
      (h.shape_eq_any hs rfl).mp (openY ((h.shape_eq_any hs rfl).mpr any) x (find_iff.mpr hx))
    rw [any, open_]
  · have known : s.shape x ≠ .any := fun eq => any (openX eq y (find_iff.mp hy))
    rw [le.shape any, le.shape known, wf.shape_congr (find_iff.mp hy), wf.shape_congr hx]

end Merge

/-- Both runs succeed or fail, for the same reason and in stores that are alike. -/
inductive Together : EStateM.Result Clash Store Unit → EStateM.Result Clash Store Unit → Prop
  | ok {s t : Store} : s.Alike t → Together (.ok () s) (.ok () t)
  | error {s t : Store} (clash : Clash) : s.Alike t → Together (.error clash s) (.error clash t)

theorem Together.bind {x y : Merging Unit} {f g : Unit → Merging Unit} (h : Together (x s) (y t))
    (next : ∀ s' t', x s = .ok () s' → y t = .ok () t' → s'.Alike t' →
      Together (f () s') (g () t')) :
    Together (EStateM.bind x f s) (EStateM.bind y g t) := by
  rw [EStateM.bind, EStateM.bind]
  generalize x s = rx at h next ⊢
  generalize y t = ry at h next ⊢
  cases h with
  | ok after => exact next _ _ rfl rfl after
  | error clash after => exact .error clash after

/-- Parts are compared in the same order, each pair the other way round. -/
theorem unifyParts_mirrored {xs ys : List (Class × Class)}
    (ih : ∀ (s t : Store) (a b c d : Class), s.Wf → t.Wf → s.Alike t → s.Mirrors (a, b) (c, d) →
      Together (unifyWithin n a b s) (unifyWithin n c d t))
    (hs : s.Wf) (ht : t.Wf) (h : s.Alike t) (mirrors : List.Forall₂ s.Mirrors xs ys) :
    Together (xs.forM (fun x => unifyWithin n x.1 x.2) s)
      (ys.forM (fun y => unifyWithin n y.1 y.2) t) := by
  induction xs generalizing ys s t with
  | nil =>
    cases mirrors
    exact .ok h
  | cons x xs rest =>
    cases mirrors with
    | @cons _ y _ ys head tail =>
      change Together (EStateM.bind (unifyWithin n x.1 x.2) (fun _ => xs.forM _) s)
        (EStateM.bind (unifyWithin n y.1 y.2) (fun _ => ys.forM _) t)
      refine .bind (ih s t x.1 x.2 y.1 y.2 hs ht h head) fun s' t' runX runY after => ?_
      have unifiedX := unifyWithin_ok hs head.lt.1 head.lt.2 runX
      have unifiedY := unifyWithin_ok ht (h.size.symm ▸ head.lt'.1) (h.size.symm ▸ head.lt'.2) runY
      exact rest unifiedX.wf unifiedY.wf after (tail.imp fun _ _ m => m.of_le unifiedX.le)

theorem decomposed_eq {p q : Shape Class} (h : p.agrees q = true) :
    decomposed p = decomposed q := by
  cases p <;> cases q <;> simp_all [Shape.agrees, decomposed]

private theorem parts_ok {s' : Store} (hs : s.Wf) (same : s.SameClasses s')
    (run : ((s.shape (s.find a)).parts.zip (s.shape (s.find b)).parts).forM
      (fun x => unifyWithin n x.1 x.2) s' = .ok () t) :
    t.Wf ∧ s'.Le t ∧ t.cells = s'.cells ∧
      ∀ x ∈ (s.shape (s.find a)).parts.zip (s.shape (s.find b)).parts, t.find x.1 = t.find x.2 := by
  refine unifyParts_ok (fun _ _ _ _ => unifyWithin_ok) _ (same.wf hs) (fun x hx => ?_) run
  obtain ⟨left, right⟩ := List.of_mem_zip hx
  rw [same.size]
  exact ⟨hs.parts_lt left, hs.parts_lt right⟩

/-- Two known classes that meet: they have as many parts either way round, or clash either way. -/
private theorem known_mirrored
    (ih : ∀ (s t : Store) (a b c d : Class), s.Wf → t.Wf → s.Alike t → s.Mirrors (a, b) (c, d) →
      Together (unifyWithin n a b s) (unifyWithin n c d t))
    (hs : s.Wf) (ht : t.Wf) (h : s.Alike t) (m : s.Mirrors (a, b) (c, d))
    (ne : s.find a ≠ s.find b) (knownA : s.shape (s.find a) ≠ .any)
    (knownB : s.shape (s.find b) ≠ .any) :
    Together (unifyWithin (n + 1) a b s) (unifyWithin (n + 1) c d t) := by
  have leaders := m.leaders h hs ht
  have knownC : t.shape (t.find c) ≠ .any := mt (h.shape_eq_any hs leaders.fst).mp knownB
  have knownD : t.shape (t.find d) ≠ .any := mt (h.shape_eq_any hs leaders.snd).mp knownA
  have apart : t.find c ≠ t.find d := fun eq => ne (by
    rw [← m.snd, ← m.fst]
    exact (h.find_iff.mp eq).symm)
  have mapC := h.shape_eq hs leaders.fst
  have mapD := h.shape_eq hs leaders.snd
  have agree : (t.shape (t.find c)).agrees (t.shape (t.find d)) =
      (s.shape (s.find a)).agrees (s.shape (s.find b)) := by
    rw [← Shape.agrees_map s.find s.find, mapC, mapD, Shape.agrees_map, Shape.agrees_comm]
  rw [unifyWithin_known ne knownA knownB, unifyWithin_known apart knownC knownD, agree]
  by_cases agrees : (s.shape (s.find a)).agrees (s.shape (s.find b)) = true
  · rw [if_pos agrees, if_pos agrees]
    have remark : decomposed (s.shape (s.find a)) = decomposed (t.shape (t.find c)) :=
      (decomposed_eq agrees).trans (decomposed_eq (Shape.agrees_of_map_eq mapC.symm).1)
    have sameS := noteParts_same (s.find a) (s.find b) (s.shape (s.find a)) s
    have sameT := noteParts_same (t.find c) (t.find d) (t.shape (t.find c)) t
    have noted := h.noteParts remark (s.find a) (s.find b) (t.find c) (t.find d)
    have parts := (forall₂_zip_swap (h.parts hs ht leaders.snd) (h.parts hs ht leaders.fst)).imp
      fun x y both => Mirrors.mk (s := s) ⟨both.1.1.1, both.2.1.1⟩ ⟨both.2.1.2, both.1.1.2⟩
        both.2.2 both.1.2
    refine .bind (unifyParts_mirrored ih (sameS.wf hs) (sameT.wf ht) noted
      (parts.imp fun _ _ m => m.of_le sameS.le)) fun s' t' runS runT after => ?_
    obtain ⟨wfS, leS, -, finds⟩ := parts_ok hs sameS runS
    obtain ⟨wfT, -, -, -⟩ := parts_ok ht sameT runT
    have le := sameS.le.trans (sameS.wf hs) leS
    have joinable : s'.Joinable (s.find a) (s.find b) :=
      (hs.joinable_of_parts wfS le knownA knownB agrees finds).congr wfS
        (le.find (hs.find_find a)) (le.find (hs.find_find b))
    exact .ok (after.merge wfS wfT (leaders.of_le le) joinable)
  · rw [if_neg agrees, if_neg agrees]
    exact .error .shape (h.record .error _ _ _ _ "")

/-- A hole `v` that meets a known class `w`: it is found inside that class either way round, or the
two are merged. -/
private theorem absorb_mirrored {v w v' w' : Class} (hs : s.Wf) (ht : t.Wf) (h : s.Alike t)
    (m : s.Mirrors (a, b) (c, d)) (occurs : t.occurs v' w' = s.occurs v w)
    (joinable : ¬ s.occurs v w = true → s.Joinable a b) :
    Together
      (if s.occurs v w then .error .infinite (s.record .occursCheck v w "")
        else .ok () ((s.record .absorb v w "").merge a b))
      (if t.occurs v' w' then .error .infinite (t.record .occursCheck v' w' "")
        else .ok () ((t.record .absorb v' w' "").merge c d)) := by
  rw [occurs]
  by_cases found : s.occurs v w = true
  · rw [if_pos found, if_pos found]
    exact .error .infinite (h.record .occursCheck v w v' w' "")
  · rw [if_neg found, if_neg found]
    have sameS := record_same .absorb v w "" s
    have sameT := record_same .absorb v' w' "" t
    exact .ok ((h.record .absorb v w v' w' "").merge (sameS.wf hs) (sameT.wf ht)
      (m.of_le sameS.le) (sameS.joinable (joinable found)))

/-- The two ways round take the same turns: the same classes meet, in the same order, and each pair
finds the same known. What they leave is led by other members at most. -/
theorem unifyWithin_mirrored (hs : s.Wf) (ht : t.Wf) (h : s.Alike t)
    (m : s.Mirrors (a, b) (c, d)) : Together (unifyWithin n a b s) (unifyWithin n c d t) := by
  induction n generalizing s t a b c d with
  | zero => exact .error .infinite h
  | succ n ih =>
    have leaders := m.leaders h hs ht
    by_cases eq : s.find a = s.find b
    · have eq' : t.find c = t.find d := h.find_iff.mpr (m.fst.trans (eq.symm.trans m.snd.symm))
      rw [unifyWithin_same eq, unifyWithin_same eq']
      exact .ok (h.record .identity _ _ _ _ "")
    have apart : t.find c ≠ t.find d := fun eq' =>
      eq (m.snd.symm.trans ((h.find_iff.mp eq').symm.trans m.fst))
    have openC := h.shape_eq_any hs leaders.fst
    have openD := h.shape_eq_any hs leaders.snd
    by_cases openA : s.shape (s.find a) = .any <;> by_cases openB : s.shape (s.find b) = .any
    · rw [unifyWithin_open eq openA openB,
        unifyWithin_open apart (openC.mpr openB) (openD.mpr openA)]
      refine .ok (h.merge hs ht leaders ?_)
      exact (hs.joinable_of_open openA openB).congr hs (hs.find_find a) (hs.find_find b)
    · rw [unifyWithin_open_left eq openA openB,
        unifyWithin_open_right apart (mt openC.mp openB) (openD.mpr openA)]
      refine absorb_mirrored hs ht h leaders (h.occurs hs ht m.snd m.fst) fun free => ?_
      exact (hs.joinable_of_not_occurs m.lt.2 openA free).congr hs (hs.find_find a)
        (hs.find_find b)
    · rw [unifyWithin_open_right eq openA openB,
        unifyWithin_open_left apart (openC.mpr openB) (mt openD.mp openA)]
      refine absorb_mirrored hs ht h leaders (h.occurs hs ht m.fst m.snd) fun free => ?_
      exact (hs.joinable_of_not_occurs m.lt.1 openB free).symm.congr hs (hs.find_find a)
        (hs.find_find b)
    · exact known_mirrored (fun _ _ _ _ _ _ => ih) hs ht h m eq openA openB

section Trace

/-- The run has noted its steps after those that were there. -/
inductive Appends (s : Store) : EStateM.Result Clash Store Unit → Prop
  | ok {t : Store} : s.trace.toList <+: t.trace.toList → Appends s (.ok () t)
  | error {t : Store} (clash : Clash) : s.trace.toList <+: t.trace.toList →
      Appends s (.error clash t)

theorem Appends.later {r : EStateM.Result Clash Store Unit} (h : t.Appends r)
    (before : s.trace.toList <+: t.trace.toList) : s.Appends r := by
  cases h with
  | ok later => exact .ok (before.trans later)
  | error clash later => exact .error clash (before.trans later)

theorem Appends.bind {x : Merging Unit} {f : Unit → Merging Unit} (h : s.Appends (x s))
    (next : ∀ t : Store, t.Appends (f () t)) : s.Appends (EStateM.bind x f s) := by
  rw [EStateM.bind]
  generalize x s = r at h ⊢
  cases h with
  | error clash before => exact .error clash before
  | @ok t before => exact (next t).later before

theorem record_appends (action : Action) (a b : Class) (detail : String) (s : Store) :
    s.trace.toList <+: (s.record action a b detail).trace.toList := by
  unfold record
  split <;> simp

theorem noteParts_appends (a b : Class) (p : Shape Class) (s : Store) :
    s.trace.toList <+: (s.noteParts a b p).trace.toList := by
  unfold noteParts
  split
  · exact record_appends _ _ _ _ _
  · exact List.prefix_rfl

theorem unifyParts_appends {n : Nat} (ih : ∀ a b s, Appends s (unifyWithin n a b s))
    (pairs : List (Class × Class)) (s : Store) :
    s.Appends (pairs.forM (fun x => unifyWithin n x.1 x.2) s) := by
  induction pairs generalizing s with
  | nil => exact .ok List.prefix_rfl
  | cons x pairs rest => exact .bind (ih x.1 x.2 s) rest

theorem unifyWithin_appends (n : Nat) (a b : Class) (s : Store) :
    s.Appends (unifyWithin n a b s) := by
  induction n generalizing a b s with
  | zero => exact .error .infinite List.prefix_rfl
  | succ n ih =>
    by_cases eq : s.find a = s.find b
    · rw [unifyWithin_same eq]
      exact .ok (record_appends _ _ _ _ s)
    by_cases openA : s.shape (s.find a) = .any <;> by_cases openB : s.shape (s.find b) = .any
    · rw [unifyWithin_open eq openA openB]
      exact .ok List.prefix_rfl
    · rw [unifyWithin_open_left eq openA openB]
      split
      · exact .error .infinite (record_appends _ _ _ _ s)
      · exact .ok (record_appends .absorb _ _ _ s)
    · rw [unifyWithin_open_right eq openA openB]
      split
      · exact .error .infinite (record_appends _ _ _ _ s)
      · exact .ok (record_appends .absorb _ _ _ s)
    · rw [unifyWithin_known eq openA openB]
      split
      · refine Appends.later (.bind (unifyParts_appends ih _ _) fun t => ?_)
          (noteParts_appends _ _ _ s)
        exact .ok List.prefix_rfl
      · exact .error .shape (record_appends _ _ _ _ s)

/-- Steps that were noted after the same ones and are alike with them are alike. -/
theorem Alike.exists_append (h : t.Alike u) (before : s.trace.toList <+: t.trace.toList)
    (before' : s.trace.toList <+: u.trace.toList) :
    ∃ xs ys, t.trace.toList = s.trace.toList ++ xs ∧ u.trace.toList = s.trace.toList ++ ys ∧
      xs.map Step.event = ys.map Step.event := by
  obtain ⟨xs, hxs⟩ := before
  obtain ⟨ys, hys⟩ := before'
  refine ⟨xs, ys, hxs.symm, hys.symm, ?_⟩
  have events := h.events
  rw [← hxs, ← hys, List.map_append, List.map_append] at events
  exact (List.append_cancel_left events).symm

end Trace

/-- Naming two classes in the other order makes no difference but to who leads them: both calls
succeed, and leave the same classes with the same types, or both fail, with the sides of the
mismatch exchanged; and they take the same steps. -/
theorem unify_symmetric (h : s.Reachable) (ha : a < s.size) (hb : b < s.size) :
    ((∃ t u, s.unify a b = (.ok (), t) ∧ s.unify b a = (.ok (), u) ∧
        (∀ v w, t.find v = t.find w ↔ u.find v = u.find w) ∧ ∀ v, t.resolve v = u.resolve v) ∨
      ∃ m t u, s.unify a b = (.error m, t) ∧
        s.unify b a = (.error ⟨m.actual, m.expected, m.infinite⟩, u)) ∧
    ∃ xs ys, (s.unify a b).2.trace.toList = s.trace.toList ++ xs ∧
      (s.unify b a).2.trace.toList = s.trace.toList ++ ys ∧
      xs.map Step.event = ys.map Step.event := by
  have run := unifyWithin_mirrored (n := s.size) h.wf h.wf (.refl s)
    ⟨⟨ha, hb⟩, ⟨hb, ha⟩, rfl, rfl⟩
  have first := unifyWithin_appends s.size a b s
  have second := unifyWithin_appends s.size b a s
  simp only [unify]
  generalize eq : unifyWithin s.size a b s = rab at run first ⊢
  generalize unifyWithin s.size b a s = rba at run second ⊢
  cases run with
  | @ok t u alike =>
    have wf := (unifyWithin_ok h.wf ha hb eq).wf
    cases first with
    | ok before =>
      cases second with
      | ok before' =>
        refine ⟨.inl ⟨t, u, rfl, rfl, fun v w => alike.find_iff.symm, fun v => ?_⟩,
          alike.exists_append before before'⟩
        exact (alike.resolve wf v).symm
  | error clash alike =>
    cases first with
    | error _ before =>
      cases second with
      | error _ before' => exact ⟨.inr ⟨_, _, _, rfl, rfl⟩, alike.exists_append before before'⟩

section Example

/-- A hole that stands twice in a pair, and a pair of a list of a hole and a list of integers. -/
def sharedHole : Store :=
  let hole := (alloc .any .synthetic (empty true)).2
  let twice := (alloc (.tuple [0, 0]) .synthetic hole).2
  (load .synthetic (.tuple [.array .any, .array .int]) twice).2

theorem sharedHole_reachable : sharedHole.Reachable :=
  .load _ _ (.alloc _ _ (.alloc _ _ (.empty true) (by decide)) (by decide))

private def isInfinite : Except Mismatch Unit → Bool
  | .ok () => false
  | .error m => m.infinite

/-- Either way round both lists become lists of integers, led by another one of them, in the same
four steps. That the hole is not a pair of itself is found either way as well. -/
theorem sharedHole_symmetric :
    (∃ t u, sharedHole.unify 1 6 = (.ok (), t) ∧ sharedHole.unify 6 1 = (.ok (), u) ∧
      t.find 0 ≠ u.find 0 ∧ (∀ v w, t.find v = t.find w ↔ u.find v = u.find w) ∧
      t.resolve 0 = .array .int ∧ (∀ v, t.resolve v = u.resolve v) ∧
      t.trace.size = 4 ∧ t.trace.toList.map Step.event = u.trace.toList.map Step.event) ∧
    ∃ m t u, sharedHole.unify 0 1 = (.error m, t) ∧ m.infinite = true ∧
      sharedHole.unify 1 0 = (.error ⟨m.actual, m.expected, m.infinite⟩, u) := by
  constructor
  · have facts : (sharedHole.unify 1 6).1.isOk = true ∧
        (sharedHole.unify 1 6).2.find 0 ≠ (sharedHole.unify 6 1).2.find 0 ∧
        (sharedHole.unify 1 6).2.resolve 0 = .array .int ∧
        (sharedHole.unify 1 6).2.trace.size = 4 ∧ sharedHole.trace.toList = [] := by
      decide +kernel
    obtain ⟨ok, leaders, list, count, fresh⟩ := facts
    obtain ⟨⟨t, u, run, run', classes, types⟩ | ⟨m, t, u, failed, -⟩, xs, ys, hxs, hys, same⟩ :=
      unify_symmetric sharedHole_reachable (a := 1) (b := 6) (by decide +kernel) (by decide +kernel)
    · rw [run] at list hxs count
      rw [run'] at hys
      rw [run, run'] at leaders
      rw [fresh, List.nil_append] at hxs hys
      exact ⟨t, u, run, run', leaders, classes, list, types, count, hxs ▸ hys ▸ same⟩
    · simp [failed, Except.isOk, Except.toBool] at ok
  · have infinite : isInfinite (sharedHole.unify 0 1).1 = true := by decide +kernel
    obtain ⟨⟨t, u, run, -⟩ | ⟨m, t, u, run, run'⟩, -⟩ :=
      unify_symmetric sharedHole_reachable (a := 0) (b := 1) (by decide +kernel) (by decide +kernel)
    · simp [run, isInfinite] at infinite
    · rw [run] at infinite
      exact ⟨m, t, u, run, infinite, run'⟩

end Example

end Store

end Ordinance
