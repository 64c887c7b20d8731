import Ordinance.Proofs.Store.Reachable

namespace Ordinance.Store

/-- What two classes are to each other when they meet. -/
inductive Encounter where
  | same
  | holes
  | fills (hole other : Class)
  | parts (p q : Shape Class)
  | clash

def encounter (s : Store) (a b : Class) : Encounter :=
  if s.find a = s.find b then .same
  else
    match s.shape (s.find a), s.shape (s.find b) with
    | .any, .any => .holes
    | .any, _ => .fills (s.find a) (s.find b)
    | _, .any => .fills (s.find b) (s.find a)
    | p, q => if p.agrees q then .parts p q else .clash

variable {s t u : Store} {a b v part : Class} {n : Nat}

section Encounter

/-- When two classes are what to each other. -/
inductive Meets (s : Store) (a b : Class) : Encounter → Prop
  | same : s.find a = s.find b → Meets s a b .same
  | holes : s.find a ≠ s.find b → s.shape (s.find a) = .any → s.shape (s.find b) = .any →
      Meets s a b .holes
  | left : s.find a ≠ s.find b → s.shape (s.find a) = .any → s.shape (s.find b) ≠ .any →
      Meets s a b (.fills (s.find a) (s.find b))
  | right : s.find a ≠ s.find b → s.shape (s.find a) ≠ .any → s.shape (s.find b) = .any →
      Meets s a b (.fills (s.find b) (s.find a))
  | parts : s.find a ≠ s.find b → s.shape (s.find a) ≠ .any → s.shape (s.find b) ≠ .any →
      (s.shape (s.find a)).agrees (s.shape (s.find b)) = true →
      Meets s a b (.parts (s.shape (s.find a)) (s.shape (s.find b)))
  | clash : s.find a ≠ s.find b → s.shape (s.find a) ≠ .any → s.shape (s.find b) ≠ .any →
      ¬ (s.shape (s.find a)).agrees (s.shape (s.find b)) = true → Meets s a b .clash

theorem meets_encounter (s : Store) (a b : Class) : s.Meets a b (s.encounter a b) := by
  rw [encounter]
  by_cases same : s.find a = s.find b
  · rw [if_pos same]
    exact .same same
  rw [if_neg same]
  split
  next ha hb => exact .holes same ha hb
  next ha hb => exact .left same ha hb
  next hb ha => exact .right same ha hb
  next ha hb _ =>
    split
    next agrees => exact .parts same ha hb agrees
    next agrees => exact .clash same ha hb agrees

/-- One level of unification: what is noted, and which parts meet before the classes are merged. -/
theorem unifyWithin_succ (n : Nat) (a b : Class) (s : Store) : unifyWithin (n + 1) a b s =
    match s.encounter a b with
    | .same => .ok () (s.record .identity (s.find a) (s.find b) "")
    | .holes => .ok () (s.merge (s.find a) (s.find b))
    | .fills hole other =>
        if s.occurs hole other then .error .infinite (s.record .occursCheck hole other "")
        else .ok () ((s.record .absorb hole other "").merge (s.find a) (s.find b))
    | .parts p q =>
        EStateM.bind ((p.parts.zip q.parts).forM fun x => unifyWithin n x.1 x.2)
          (fun _ => modify (·.merge (s.find a) (s.find b)))
          (s.noteParts (s.find a) (s.find b) p)
    | .clash => .error .shape (s.record .error (s.find a) (s.find b) "") := by
  have meets := s.meets_encounter a b
  generalize s.encounter a b = e at meets ⊢
  cases meets with
  | same eq => exact unifyWithin_same eq
  | holes ne ha hb => exact unifyWithin_open ne ha hb
  | left ne ha hb => exact unifyWithin_open_left ne ha hb
  | right ne ha hb => exact unifyWithin_open_right ne ha hb
  | parts ne ha hb agrees => rw [unifyWithin_known ne ha hb, if_pos agrees]
  | clash ne ha hb agrees => rw [unifyWithin_known ne ha hb, if_neg agrees]

end Encounter

section Rules

/-- The step has been noted, with both sides as they read, if steps are kept. -/
inductive Noted (s : Store) (action : Action) (left right : Class) (detail : String) : Store → Prop
  | off : s.tracing = false → Noted s action left right detail s
  | on {x y : Ty} : s.tracing = true → s.ReadsAs left x → s.ReadsAs right y →
      Noted s action left right detail
        { s with trace := s.trace.push ⟨s.trace.size + 1, action, x.render, y.render, detail⟩ }

/-- The same of the step that takes shapes apart, for shapes that have parts to compare. -/
inductive NotedParts (s : Store) (left right : Class) (p : Shape Class) : Store → Prop
  | none : decomposed p = none → NotedParts s left right p s
  | some {detail : String} {t : Store} : decomposed p = some detail →
      s.Noted .decompose left right detail t → NotedParts s left right p t

/-- The unification of pairs of classes, one after the other and each after its parts, has come to
an end. -/
inductive Unifies : Store → List (Class × Class) → EStateM.Result Clash Store Unit → Prop
  | done {s : Store} : Unifies s [] (.ok () s)
  | same {s t : Store} {a b : Class} {rest : List (Class × Class)}
      {r : EStateM.Result Clash Store Unit} : s.encounter a b = .same →
      s.Noted .identity (s.find a) (s.find b) "" t → Unifies t rest r → Unifies s ((a, b) :: rest) r
  | holes {s : Store} {a b : Class} {rest : List (Class × Class)}
      {r : EStateM.Result Clash Store Unit} : s.encounter a b = .holes →
      Unifies (s.merge (s.find a) (s.find b)) rest r → Unifies s ((a, b) :: rest) r
  | filled {s t : Store} {a b hole other : Class} {rest : List (Class × Class)}
      {r : EStateM.Result Clash Store Unit} : s.encounter a b = .fills hole other →
      s.Searched hole other false → s.Noted .absorb hole other "" t →
      Unifies (t.merge (s.find a) (s.find b)) rest r → Unifies s ((a, b) :: rest) r
  | infinite {s t : Store} {a b hole other : Class} {rest : List (Class × Class)} :
      s.encounter a b = .fills hole other → s.Searched hole other true →
      s.Noted .occursCheck hole other "" t → Unifies s ((a, b) :: rest) (.error .infinite t)
  | parts {s t u : Store} {a b : Class} {p q : Shape Class} {rest : List (Class × Class)}
      {r : EStateM.Result Clash Store Unit} : s.encounter a b = .parts p q →
      s.NotedParts (s.find a) (s.find b) p t → Unifies t (p.parts.zip q.parts) (.ok () u) →
      Unifies (u.merge (s.find a) (s.find b)) rest r → Unifies s ((a, b) :: rest) r
  | refused {s t u : Store} {a b : Class} {p q : Shape Class} {rest : List (Class × Class)}
      {clash : Clash} : s.encounter a b = .parts p q →
      s.NotedParts (s.find a) (s.find b) p t → Unifies t (p.parts.zip q.parts) (.error clash u) →
      Unifies s ((a, b) :: rest) (.error clash u)
  | clash {s t : Store} {a b : Class} {rest : List (Class × Class)} : s.encounter a b = .clash →
      s.Noted .error (s.find a) (s.find b) "" t → Unifies s ((a, b) :: rest) (.error .shape t)

/-- A call has come to an end, and at the answer. A mismatch reads both sides once more. -/
inductive Answers (s : Store) (a b : Class) : Except Mismatch Unit × Store → Prop
  | ok {t : Store} : s.Unifies [(a, b)] (.ok () t) → Answers s a b (.ok (), t)
  | error {t : Store} {clash : Clash} {x y : Ty} : s.Unifies [(a, b)] (.error clash t) →
      s.ReadsAs a x → s.ReadsAs b y →
      Answers s a b (.error ⟨⟨x, s.span a⟩, ⟨y, s.span b⟩, clash == .infinite⟩,
        { s with trace := t.trace })

end Rules

section Unique

theorem ReadsAs.unique {x y : Ty} (h : s.ReadsAs v x) (h' : s.ReadsAs v y) : x = y := by
  induction h generalizing y with
  | node read _ ih =>
    cases h' with
    | node read' parts => exact congrArg _ (Shape.map_congr fun p hp => ih p hp (parts p hp))

theorem Searched.unique {x y : Bool} (h : s.Searched part v x) (h' : s.Searched part v y) :
    x = y := by
  induction h generalizing y with
  | here found =>
    cases h' with
    | here => rfl
    | parts _ ne => exact absurd found ne
  | @parts v found ne _ ih =>
    cases h' with
    | here eq => exact absurd eq ne
    | parts found' _ each =>
      have same : (s.shape v).parts.map found = (s.shape v).parts.map found' :=
        List.map_congr_left fun p hp => ih p hp (each p hp)
      simpa using congrArg (List.any · id) same

theorem Noted.unique {action : Action} {detail : String} (h : s.Noted action a b detail t)
    (h' : s.Noted action a b detail u) : t = u := by
  cases h with
  | off off =>
    cases h' with
    | off => rfl
    | on on => simp [on] at off
  | on on left right =>
    cases h' with
    | off off => simp [on] at off
    | on _ left' right' => rw [left.unique left', right.unique right']

theorem NotedParts.unique {p : Shape Class} (h : s.NotedParts a b p t)
    (h' : s.NotedParts a b p u) : t = u := by
  cases h with
  | none none =>
    cases h' with
    | none => rfl
    | some some => simp [some] at none
  | some some noted =>
    cases h' with
    | none none => simp [some] at none
    | some some' noted' =>
      obtain rfl := Option.some.inj (some.symm.trans some')
      exact noted.unique noted'

theorem Unifies.unique {pairs : List (Class × Class)} {r r' : EStateM.Result Clash Store Unit}
    (h : s.Unifies pairs r) (h' : s.Unifies pairs r') : r = r' := by
  induction h generalizing r' with
  | done =>
    cases h'
    rfl
  | same meets noted _ ih =>
    cases h' with
    | same _ noted' rest => exact ih (noted.unique noted' ▸ rest)
    | _ => simp_all
  | holes meets _ ih =>
    cases h' with
    | holes _ rest => exact ih rest
    | _ => simp_all
  | filled meets searched noted _ ih =>
    cases h' with
    | filled meets' _ noted' rest =>
      obtain ⟨rfl, rfl⟩ := Encounter.fills.inj (meets.symm.trans meets')
      exact ih (noted.unique noted' ▸ rest)
    | infinite meets' searched' _ =>
      obtain ⟨rfl, rfl⟩ := Encounter.fills.inj (meets.symm.trans meets')
      cases searched.unique searched'
    | _ => simp_all
  | infinite meets searched noted =>
    cases h' with
    | filled meets' searched' _ _ =>
      obtain ⟨rfl, rfl⟩ := Encounter.fills.inj (meets.symm.trans meets')
      cases searched.unique searched'
    | infinite meets' _ noted' =>
      obtain ⟨rfl, rfl⟩ := Encounter.fills.inj (meets.symm.trans meets')
      rw [noted.unique noted']
    | _ => simp_all
  | parts meets noted _ _ inner ih =>
    cases h' with
    | parts meets' noted' parts' rest =>
      obtain ⟨rfl, rfl⟩ := Encounter.parts.inj (meets.symm.trans meets')
      cases noted.unique noted'
      cases inner parts'
      exact ih rest
    | refused meets' noted' parts' =>
      obtain ⟨rfl, rfl⟩ := Encounter.parts.inj (meets.symm.trans meets')
      cases noted.unique noted'
      cases inner parts'
    | _ => simp_all
  | refused meets noted _ inner =>
    cases h' with
    | parts meets' noted' parts' _ =>
      obtain ⟨rfl, rfl⟩ := Encounter.parts.inj (meets.symm.trans meets')
      cases noted.unique noted'
      cases inner parts'
    | refused meets' noted' parts' =>
      obtain ⟨rfl, rfl⟩ := Encounter.parts.inj (meets.symm.trans meets')
      cases noted.unique noted'
      exact inner parts'
    | _ => simp_all
  | clash meets noted =>
    cases h' with
    | clash _ noted' => rw [noted.unique noted']
    | _ => simp_all

theorem Answers.unique {x y : Except Mismatch Unit × Store} (h : s.Answers a b x)
    (h' : s.Answers a b y) : x = y := by
  cases h with
  | ok run =>
    cases h' with
    | ok run' =>
      cases run.unique run'
      rfl
    | error run' _ _ => cases run.unique run'
  | error run left right =>
    cases h' with
    | ok run' => cases run.unique run'
    | error run' left' right' =>
      cases run.unique run'
      rw [left.unique left', right.unique right']

end Unique

section Exists

theorem Wf.readsAs_resolve (hs : s.Wf) (hv : v < s.size) : s.ReadsAs v (s.resolve v) := by
  obtain ⟨rank, bounded, descends⟩ := hs.exists_rank
  exact readsAs_resolveWithin descends (bounded v hv)

theorem Wf.searched_occurs (hs : s.Wf) (part : Class) (hv : v < s.size) :
    s.Searched part v (s.occurs part v) := by
  obtain ⟨rank, bounded, descends⟩ := hs.exists_rank
  exact searched_occursWithin descends part (bounded v hv)

theorem Wf.noted_record (hs : s.Wf) (action : Action) (detail : String) (ha : a < s.size)
    (hb : b < s.size) : s.Noted action a b detail (s.record action a b detail) := by
  unfold record
  split
  next on => exact .on on (hs.readsAs_resolve ha) (hs.readsAs_resolve hb)
  next off => exact .off (Bool.eq_false_iff.mpr off)

theorem Wf.notedParts (hs : s.Wf) (p : Shape Class) (ha : a < s.size) (hb : b < s.size) :
    s.NotedParts a b p (s.noteParts a b p) := by
  unfold noteParts
  split
  next detail some => exact .some some (hs.noted_record .decompose detail ha hb)
  next none => exact .none none

/-- Where the classes have been noted, the parts that are to meet are classes, and the first one is
inside the first class. -/
theorem Wf.parts_noted {x : Class × Class} (hs : s.Wf)
    (hx : x ∈ (s.shape (s.find a)).parts.zip (s.shape (s.find b)).parts) :
    let u := s.noteParts (s.find a) (s.find b) (s.shape (s.find a))
    (x.1 < u.size ∧ x.2 < u.size) ∧ u.PartOf x.1 a := by
  obtain ⟨left, right⟩ := List.of_mem_zip hx
  have same := noteParts_same (s.find a) (s.find b) (s.shape (s.find a)) s
  dsimp only
  rw [same.size, same.partOf]
  exact ⟨⟨hs.parts_lt left, hs.parts_lt right⟩, x.1, hs.shape_find a ▸ left, rfl⟩

theorem pairwise_inside_cons {path : List Class} (hv : s.PartOf v a)
    (around : (a :: path).Pairwise s.Inside) : (v :: a :: path).Pairwise s.Inside := by
  refine List.pairwise_cons.mpr ⟨fun w hw => ?_, around⟩
  rcases List.mem_cons.mp hw with rfl | hw
  · exact .single hv
  · exact .head hv ((List.pairwise_cons.mp around).1 w hw)

/-- One level of unification is one rule, if its parts and what comes after it follow the rules. -/
theorem unifies_cons {rest : List (Class × Class)} {k : Merging Unit} (hs : s.Wf) (ha : a < s.size)
    (hb : b < s.size)
    (inner : ∀ p q, s.encounter a b = .parts p q →
      (s.noteParts (s.find a) (s.find b) p).Unifies (p.parts.zip q.parts)
        ((p.parts.zip q.parts).forM (fun x => unifyWithin n x.1 x.2)
          (s.noteParts (s.find a) (s.find b) p)))
    (next : ∀ t, unifyWithin (n + 1) a b s = .ok () t → t.Unifies rest (k t)) :
    s.Unifies ((a, b) :: rest) (EStateM.bind (unifyWithin (n + 1) a b) (fun _ => k) s) := by
  have la := hs.find_lt ha
  have lb := hs.find_lt hb
  rw [EStateM.bind]
  rw [unifyWithin_succ] at next ⊢
  have meets := s.meets_encounter a b
  cases enc : s.encounter a b with
  | same =>
    rw [enc] at next
    exact .same enc (hs.noted_record .identity "" la lb) (next _ rfl)
  | holes =>
    rw [enc] at next
    exact .holes enc (next _ rfl)
  | clash => exact .clash enc (hs.noted_record .error "" la lb)
  | fills hole other =>
    rw [enc] at next meets
    have sides : hole < s.size ∧ other < s.size := by
      cases meets
      · exact ⟨la, lb⟩
      · exact ⟨lb, la⟩
    have searched := hs.searched_occurs hole sides.2
    by_cases found : s.occurs hole other = true
    · rw [found] at searched
      simp only [if_pos found]
      exact .infinite enc searched (hs.noted_record .occursCheck "" sides.1 sides.2)
    · rw [Bool.eq_false_iff.mpr found] at searched
      simp only [if_neg found] at next ⊢
      exact .filled enc searched (hs.noted_record .absorb "" sides.1 sides.2) (next _ rfl)
  | parts p q =>
    have noted := hs.notedParts p la lb
    have inner := inner p q enc
    rw [enc] at next
    simp only [EStateM.bind] at next ⊢
    cases run : (p.parts.zip q.parts).forM (fun x => unifyWithin n x.1 x.2)
        (s.noteParts (s.find a) (s.find b) p) with
    | ok _ u =>
      rw [run] at inner next
      exact .parts enc noted inner (next _ rfl)
    | error clash u =>
      rw [run] at inner
      exact .refused enc noted inner

/-- Pairs of classes that are unified within a depth that the classes around them leave over: all
those around one pair are different, so the depth is never used up. -/
theorem unifies_forM {path : List Class} {pairs : List (Class × Class)} (hs : s.Wf)
    (bounded : ∀ x ∈ pairs, x.1 < s.size ∧ x.2 < s.size)
    (chain : ∀ x ∈ pairs, (x.1 :: path).Pairwise s.Inside) (fuel : n + path.length = s.size) :
    s.Unifies pairs (pairs.forM (fun x => unifyWithin n x.1 x.2) s) := by
  induction n generalizing s path pairs with
  | zero =>
    cases pairs with
    | nil => exact .done
    | cons x pairs =>
      -- No fuel is left only when as many classes as the store has are around the pair.
      have := hs.length_lt_of_chain (bounded x List.mem_cons_self).1 (chain x List.mem_cons_self)
      omega
  | succ n ih =>
    induction pairs generalizing s with
    | nil => exact .done
    | cons x rest tail =>
      obtain ⟨a, b⟩ := x
      obtain ⟨⟨ha, hb⟩, bounded⟩ := List.forall_mem_cons.mp bounded
      obtain ⟨around, chain⟩ := List.forall_mem_cons.mp chain
      refine unifies_cons hs ha hb ?_ ?_
      · intro p q enc
        have meets := s.meets_encounter a b
        rw [enc] at meets
        cases meets with
        | parts =>
          have same := noteParts_same (s.find a) (s.find b) (s.shape (s.find a)) s
          rw [Inside, ← same.partOf] at around
          refine ih (same.wf hs) (fun x hx => (hs.parts_noted hx).1)
            (fun x hx => pairwise_inside_cons (hs.parts_noted hx).2 around) ?_
          rw [same.size, List.length_cons]
          omega
      · intro t run
        have unified := unifyWithin_ok hs ha hb run
        exact tail unified.wf (unified.size.symm ▸ bounded)
          (fun x hx => (chain x hx).imp unified.le.inside) (fuel.trans unified.size.symm)

theorem unifies_unifyWithin (hs : s.Wf) (ha : a < s.size) (hb : b < s.size) :
    s.Unifies [(a, b)] (unifyWithin s.size a b s) := by
  have bounded : ∀ x ∈ [(a, b)], x.1 < s.size ∧ x.2 < s.size :=
    List.forall_mem_singleton.mpr ⟨ha, hb⟩
  have chain : ∀ x ∈ [(a, b)], [x.1].Pairwise s.Inside :=
    fun x _ => List.pairwise_singleton _ x.1
  have run := unifies_forM hs bounded chain (Nat.add_zero s.size)
  change s.Unifies _ (EStateM.bind (unifyWithin s.size a b) (fun _ => Pure.pure ()) s) at run
  rw [EStateM.bind] at run
  cases eq : unifyWithin s.size a b s with
  | ok _ t =>
    rw [eq] at run
    exact run
  | error clash t =>
    rw [eq] at run
    exact run

end Exists

/-- Every call comes to an end, with all that it searches and reads on its way, and there is no
answer but the one that is given. -/
theorem unify_terminates (h : s.Reachable) (ha : a < s.size) (hb : b < s.size) :
    s.Answers a b (s.unify a b) ∧ ∀ x, s.Answers a b x → x = s.unify a b := by
  have answers : s.Answers a b (s.unify a b) := by
    have run := unifies_unifyWithin h.wf ha hb
    rw [unify]
    cases eq : unifyWithin s.size a b s with
    | ok _ t =>
      rw [eq] at run
      exact .ok run
    | error clash t =>
      rw [eq] at run
      exact .error run (h.wf.readsAs_resolve ha) (h.wf.readsAs_resolve hb)
  exact ⟨answers, fun x hx => hx.unique answers⟩

section Example

/-- A pair of one hole twice, and a pair of the lists of another hole and that hole. The first parts
make the first hole those lists; then the second hole is found inside them. -/
def tangle : Store :=
  let hole := (alloc .any .synthetic (empty true)).2
  let twice := (alloc (.tuple [0, 0]) .synthetic hole).2
  let item := (alloc .any .synthetic twice).2
  let list := (alloc (.array 2) .synthetic item).2
  (alloc (.tuple [3, 2]) .synthetic list).2

theorem tangle_reachable : tangle.Reachable :=
  .alloc _ _ (.alloc _ _ (.alloc _ _ (.alloc _ _ (.alloc _ _ (.empty true) (by decide))
    (by decide)) (by decide)) (by decide)) (by decide)

/-- The call ends after three steps, though the parts grow on its way. -/
theorem tangle_terminates : tangle.Reachable ∧ tangle.Answers 1 4 (tangle.unify 1 4) ∧
    (tangle.unify 1 4).2.trace.toList.map (·.action) = [.decompose, .absorb, .occursCheck] := by
  refine ⟨tangle_reachable, ?_, by decide +kernel⟩
  exact (unify_terminates tangle_reachable (by decide +kernel) (by decide +kernel)).1

end Example

end Ordinance.Store
