import Ordinance.Proofs.Store.Model
import Ordinance.Proofs.Typing.Steps

namespace Ordinance.Store

/-- The stores that calls lead to, in any order and whether they fail or not. A call names classes
of the store only. -/
inductive Reachable : Store → Prop
  | empty (tracing : Bool) : Reachable (empty tracing)
  | alloc {s : Store} (shape : Shape Class) (span : Span) : Reachable s →
      (∀ p ∈ shape.parts, p < s.size) → Reachable (alloc shape span s).2
  | load {s : Store} (t : Ty) (span : Span) : Reachable s → Reachable (load span t s).2
  | operator {s : Store} {o : Op} {shapes : List (Shape Nat)} (span : Span) : Reachable s →
      o.signature = some shapes → Reachable (instantiate shapes span s).2
  | unify {s : Store} {a b : Class} : Reachable s → a < s.size → b < s.size →
      Reachable (s.unify a b).2

variable {s t : Store} {a b : Class} {span : Span}

section Steps

/-- `P` holds on, and `c` is a class of the store that has grown. -/
structure Made (P : Store → Prop) (s t : Store) (c : Class) : Prop where
  keeps : P t
  size : s.size ≤ t.size
  lt : c < t.size

variable {P : Store → Prop}
  (keep : ∀ s shape span, P s → (∀ p ∈ shape.parts, p < s.size) → P (Store.alloc shape span s).2)

include keep

private theorem alloc_made {u : Store} {shape : Shape Class} (h : P u) (grown : s.size ≤ u.size)
    (parts : ∀ p ∈ shape.parts, p < u.size) :
    Made P s (alloc shape span u).2 (alloc shape span u).1 where
  keeps := keep u shape span h parts
  size := by rw [size_alloc]; omega
  lt := by simp

omit keep in
private theorem loadAll_made {ts : List Ty} (h : P s)
    (each : ∀ t ∈ ts, ∀ {s : Store}, P s → Made P s (load span t s).2 (load span t s).1) :
    P (loadAll span ts s).2 ∧ s.size ≤ (loadAll span ts s).2.size ∧
      ∀ c ∈ (loadAll span ts s).1, c < (loadAll span ts s).2.size := by
  induction ts generalizing s with
  | nil => exact ⟨h, Nat.le_refl _, nofun⟩
  | cons t ts ih =>
    obtain ⟨head, tail⟩ := List.forall_mem_cons.mp each
    have first := head h
    obtain ⟨keeps, size, bounded⟩ := ih first.keeps tail
    refine ⟨keeps, Nat.le_trans first.size size, ?_⟩
    exact List.forall_mem_cons.mpr ⟨Nat.lt_of_lt_of_le first.lt size, bounded⟩

theorem load_made (t : Ty) (h : P s) : Made P s (load span t s).2 (load span t s).1 := by
  induction t using Ty.inductParts generalizing s with
  | arrow ps r ihp ihr =>
    obtain ⟨keeps, size, params⟩ := loadAll_made h ihp
    have result := ihr keeps
    refine alloc_made keep result.keeps (Nat.le_trans size result.size) ?_
    exact List.forall_mem_cons.mpr
      ⟨result.lt, fun p hp => Nat.lt_of_lt_of_le (params p hp) result.size⟩
  | tuple ts ih =>
    obtain ⟨keeps, size, parts⟩ := loadAll_made h ih
    exact alloc_made keep keeps size parts
  | option t ih | array t ih =>
    have part := ih h
    exact alloc_made keep part.keeps part.size (List.forall_mem_singleton.mpr part.lt)
  | _ => exact alloc_made keep h (Nat.le_refl _) nofun

/-- The shapes from some point of a signature on find the parts that they name. -/
theorem foldlM_alloc {shapes : List (Shape Nat)} {start last n : Nat} (h : P s)
    (size : s.size = start + n) (before : ∀ x ∈ shapes.zipIdx n, ∀ q ∈ x.1.parts, q < x.2) :
    P (shapes.foldlM (fun _ shape => alloc (shape.map (start + ·)) span) last s).2 := by
  induction shapes generalizing s n last with
  | nil => exact h
  | cons p shapes ih =>
    rw [List.zipIdx_cons] at before
    obtain ⟨head, tail⟩ := List.forall_mem_cons.mp before
    have parts : ∀ q ∈ (p.map (start + ·)).parts, q < s.size := by
      intro q hq
      rw [Shape.parts_map] at hq
      obtain ⟨i, hi, rfl⟩ := List.mem_map.mp hq
      have := head i hi
      omega
    have grown : (alloc (p.map (start + ·)) span s).2.size = start + (n + 1) := by
      rw [size_alloc, size, Nat.add_assoc]
    exact ih (keep s _ span h parts) grown tail

/-- A type or a signature is loaded by allocations, so only those and unification count. -/
theorem Reachable.induct (empty : ∀ tracing, P (Store.empty tracing))
    (unify : ∀ s a b, P s → a < s.size → b < s.size → P (Store.unify a b s).2)
    (h : s.Reachable) : P s := by
  induction h with
  | empty tracing => exact empty tracing
  | alloc shape span _ parts ih => exact keep _ shape span ih parts
  | load t span _ ih => exact (load_made keep t ih).keeps
  | operator span _ sig ih => exact foldlM_alloc keep ih rfl (Typing.signature_before sig)
  | unify _ ha hb ih => exact unify _ _ _ ih ha hb

end Steps

section Unify

/-- What a call that fails leaves behind are the steps in the trace. -/
theorem unify_cases (a b : Class) (s : Store) :
    (∃ t, s.unify a b = (.ok (), t) ∧ unifyWithin s.size a b s = .ok () t) ∨
      ∃ m t clash u, s.unify a b = (.error m, t) ∧ s.SameClasses t ∧
        unifyWithin s.size a b s = .error clash u := by
  cases h : unifyWithin s.size a b s with
  | ok _ t => exact .inl ⟨t, by rw [unify, h], rfl⟩
  | error clash u =>
    exact .inr ⟨_, { s with trace := u.trace }, clash, u, by rw [unify, h], ⟨rfl, rfl⟩, rfl⟩

theorem unify_eq_ok : s.unify a b = (.ok (), t) ↔ unifyWithin s.size a b s = .ok () t := by
  rcases unify_cases a b s with ⟨u, eq, run⟩ | ⟨m, u, clash, w, eq, -, run⟩
  · simp [eq, run]
  · simp [eq, run]

theorem Wf.unify (hs : s.Wf) (ha : a < s.size) (hb : b < s.size) : (s.unify a b).2.Wf := by
  rcases unify_cases a b s with ⟨t, eq, run⟩ | ⟨m, t, _, _, eq, same, _⟩
  · rw [eq]
    exact (unifyWithin_ok hs ha hb run).wf
  · rw [eq]
    exact same.wf hs

theorem Reachable.wf (h : s.Reachable) : s.Wf :=
  h.induct (fun _ _ _ hs parts => hs.alloc parts) empty_wf fun _ _ _ hs ha hb => hs.unify ha hb

end Unify

section Finite

/-- Reading a class as a type, part by part, has come to an end. -/
inductive ReadsAs (s : Store) : Class → Ty → Prop
  | node {v : Class} (read : Class → Ty) : (∀ p ∈ (s.shape v).parts, ReadsAs s p (read p)) →
      ReadsAs s v (.ofShape ((s.shape v).map read))

/-- The search for `part` in a class, part by part, has come to an end. -/
inductive Searched (s : Store) (part : Class) : Class → Bool → Prop
  | here {v : Class} : s.find v = part → Searched s part v true
  | parts {v : Class} (found : Class → Bool) : s.find v ≠ part →
      (∀ p ∈ (s.shape v).parts, Searched s part p (found p)) →
      Searched s part v ((s.shape v).parts.any found)

variable {rank : Class → Nat} {v : Class} {depth : Nat}

theorem readsAs_resolveWithin (descends : ∀ p u, s.PartOf p u → rank p < rank u)
    (deep : rank v < depth) : s.ReadsAs v (s.resolveWithin depth v) := by
  induction depth generalizing v with
  | zero => exact absurd deep (Nat.not_lt_zero _)
  | succ depth ih =>
    refine .node _ fun p hp => ih ?_
    have := descends p v ⟨p, hp, rfl⟩
    omega

theorem searched_occursWithin (descends : ∀ p u, s.PartOf p u → rank p < rank u) (part : Class)
    (deep : rank v < depth) : s.Searched part v (s.occursWithin part depth v) := by
  induction depth generalizing v with
  | zero => exact absurd deep (Nat.not_lt_zero _)
  | succ depth ih =>
    rw [occursWithin]
    by_cases here : s.find v = part
    · simpa [here] using Searched.here here
    · rw [beq_false_of_ne here, Bool.false_or]
      refine .parts _ here fun p hp => ih ?_
      have := descends p v ⟨p, hp, rfl⟩
      omega

/-- No class is inside itself, so whatever walks down a class comes to an end, and at the answer
that is given. -/
theorem reachable_finite (h : s.Reachable) : (∀ v, ¬ s.Inside v v) ∧ ∀ v < s.size,
    s.ReadsAs v (s.resolve v) ∧ ∀ part, s.Searched part v (s.occurs part v) := by
  obtain ⟨rank, bounded, descends⟩ := h.wf.exists_rank
  refine ⟨h.wf.inside_irrefl, fun v hv => ⟨?_, fun part => ?_⟩⟩
  · exact readsAs_resolveWithin descends (bounded v hv)
  · exact searched_occursWithin descends part (bounded v hv)

end Finite

section Example

/-- A function from a hole to lists of another hole. The first hole becomes those lists; the second
one is refused, since it is inside them. -/
def listMaker : Store :=
  let loaded := (load .synthetic (.arrow [.any] (.array .any)) (empty false)).2
  let filled := (loaded.unify 0 2).2
  (filled.unify 1 2).2

theorem listMaker_reachable : listMaker.Reachable :=
  .unify (.unify (.load _ _ (.empty false)) (by decide) (by decide)) (by decide) (by decide)

theorem listMaker_finite : listMaker.Reachable ∧ (∀ v, ¬ listMaker.Inside v v) ∧
    listMaker.ReadsAs 3 (.arrow [.array .any] (.array .any)) ∧ listMaker.Searched 1 3 true := by
  obtain ⟨acyclic, finite⟩ := reachable_finite listMaker_reachable
  obtain ⟨reads, searched⟩ := finite 3 (by decide +kernel)
  have ty : listMaker.resolve 3 = .arrow [.array .any] (.array .any) := by decide +kernel
  have found : listMaker.occurs 1 3 = true := by decide +kernel
  exact ⟨listMaker_reachable, acyclic, ty ▸ reads, found ▸ searched 1⟩

end Example

end Ordinance.Store
