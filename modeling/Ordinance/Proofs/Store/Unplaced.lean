import Ordinance.Proofs.Store.Unify
import Ordinance.Proofs.Ty.Instance

namespace Ordinance

def Cell.unplaced (c : Cell) : Cell := { c with span := .synthetic }

def Mismatch.unplaced (m : Mismatch) : Mismatch where
  expected := ⟨m.expected.ty, .synthetic⟩
  actual := ⟨m.actual.ty, .synthetic⟩
  infinite := m.infinite

namespace Store

variable {quiet : Bool} {s : Store} {a b : Class}

/-- The store without the places of its cells and, if it is to be quiet, without its trace. -/
def unplaced (quiet : Bool) (s : Store) : Store where
  cells := s.cells.map Cell.unplaced
  leaders := s.leaders
  tracing := s.tracing && !quiet
  trace := if quiet then #[] else s.trace

theorem unplaced_empty (quiet tracing : Bool) :
    (empty tracing).unplaced quiet = empty (tracing && !quiet) := by
  simp [unplaced, empty]

section Read

@[simp] theorem size_unplaced (s : Store) : (s.unplaced quiet).size = s.size := Array.size_map

@[simp] theorem find_unplaced (s : Store) (v : Class) : (s.unplaced quiet).find v = s.find v := rfl

@[simp] theorem cell_unplaced (s : Store) (v : Class) :
    (s.unplaced quiet).cell v = (s.cell v).unplaced := by
  simp only [cell, find_unplaced]
  cases found : s.cells[s.find v]? <;> simp [unplaced, Cell.unplaced, found]

@[simp] theorem shape_unplaced (s : Store) (v : Class) :
    (s.unplaced quiet).shape v = s.shape v := by
  rw [shape, cell_unplaced]
  rfl

theorem span_unplaced (s : Store) (v : Class) : (s.unplaced quiet).span v = .synthetic := by
  rw [span, cell_unplaced]
  rfl

theorem resolveWithin_unplaced (s : Store) (depth : Nat) :
    (s.unplaced quiet).resolveWithin depth = s.resolveWithin depth := by
  induction depth with
  | zero => rfl
  | succ depth ih =>
    funext v
    simp only [resolveWithin, shape_unplaced, ih]

@[simp] theorem resolve_unplaced (s : Store) (v : Class) :
    (s.unplaced quiet).resolve v = s.resolve v := by
  rw [resolve, resolve, size_unplaced, resolveWithin_unplaced]

theorem occursWithin_unplaced (s : Store) (part : Class) (depth : Nat) :
    (s.unplaced quiet).occursWithin part depth = s.occursWithin part depth := by
  induction depth with
  | zero => rfl
  | succ depth ih =>
    funext v
    simp only [occursWithin, find_unplaced, shape_unplaced, ih]

@[simp] theorem occurs_unplaced (s : Store) (part v : Class) :
    (s.unplaced quiet).occurs part v = s.occurs part v := by
  rw [occurs, occurs, size_unplaced, occursWithin_unplaced]

end Read

section Write

/-- A quiet store keeps no step, and any other the same one. -/
theorem record_unplaced (action : Action) (left right : Class) (detail : String) (s : Store) :
    (s.unplaced quiet).record action left right detail =
      (s.record action left right detail).unplaced quiet := by
  simp only [record, resolve_unplaced]
  obtain ⟨cells, leaders, tracing, trace⟩ := s
  cases tracing <;> cases quiet <;> rfl

theorem merge_unplaced (s : Store) (a b : Class) :
    (s.unplaced quiet).merge a b = (s.merge a b).unplaced quiet := by
  simp only [merge, find_unplaced, shape_unplaced]
  rfl

theorem noteParts_unplaced (a b : Class) (p : Shape Class) (s : Store) :
    (s.unplaced quiet).noteParts a b p = (s.noteParts a b p).unplaced quiet := by
  unfold noteParts
  split
  · exact record_unplaced _ _ _ _ _
  · rfl

/-- The two computations differ in the places that they give to cells. -/
def Placeless {α : Type} (quiet : Bool) (x y : StateM Store α) : Prop :=
  ∀ s, y (s.unplaced quiet) = ((x s).1, (x s).2.unplaced quiet)

theorem Placeless.bind {α β : Type} {x y : StateM Store α} {f g : α → StateM Store β}
    (h : Placeless quiet x y) (next : ∀ a, Placeless quiet (f a) (g a)) :
    Placeless quiet (x >>= f) (y >>= g) := by
  intro s
  change g (y _).1 (y _).2 = _
  rw [h s]
  exact next _ _

theorem alloc_placeless (shape : Shape Class) (span : Span) :
    Placeless quiet (alloc shape span) (alloc shape .synthetic) := by
  intro s
  simp [alloc, unplaced, size, Cell.unplaced]

theorem loadAll_placeless {ts : List Ty} {span : Span}
    (h : ∀ t ∈ ts, Placeless quiet (load span t) (load .synthetic t)) :
    Placeless quiet (loadAll span ts) (loadAll .synthetic ts) := by
  induction ts with
  | nil => exact fun _ => rfl
  | cons t ts ih =>
    obtain ⟨head, tail⟩ := List.forall_mem_cons.mp h
    exact head.bind fun _ => (ih tail).bind fun _ _ => rfl

theorem load_placeless (span : Span) (t : Ty) :
    Placeless quiet (load span t) (load .synthetic t) := by
  induction t using Ty.inductParts with
  | arrow ps r ihp ihr =>
    exact (loadAll_placeless ihp).bind fun _ => ihr.bind fun _ => alloc_placeless _ _
  | tuple ts ih => exact (loadAll_placeless ih).bind fun _ => alloc_placeless _ _
  | option t ih | array t ih => exact ih.bind fun _ => alloc_placeless _ _
  | _ => exact alloc_placeless _ _

theorem instantiate_placeless (shapes : List (Shape Nat)) (span : Span) :
    Placeless quiet (instantiate shapes span) (instantiate shapes .synthetic) := by
  have each (start last : Nat) : Placeless quiet
      (shapes.foldlM (fun _ shape => alloc (shape.map (start + ·)) span) last)
      (shapes.foldlM (fun _ shape => alloc (shape.map (start + ·)) .synthetic) last) := by
    induction shapes generalizing last with
    | nil => exact fun _ => rfl
    | cons p shapes ih => exact (alloc_placeless _ _).bind fun c => ih c
  intro s
  have enter (span : Span) (t : Store) : instantiate shapes span t =
      shapes.foldlM (fun _ shape => alloc (shape.map (t.size + ·)) span) t.size t := rfl
  rw [enter, enter, size_unplaced]
  exact each s.size s.size s

end Write

section Unify

/-- The outcome of a merge, of which the store has no places. -/
def unplacedResult (quiet : Bool) : EStateM.Result Clash Store Unit → EStateM.Result Clash Store Unit
  | .ok () s => .ok () (s.unplaced quiet)
  | .error clash s => .error clash (s.unplaced quiet)

theorem bind_unplaced {x : Merging Unit} {f : Unit → Merging Unit}
    (h : x (s.unplaced quiet) = unplacedResult quiet (x s))
    (next : ∀ t : Store, f () (t.unplaced quiet) = unplacedResult quiet (f () t)) :
    EStateM.bind x f (s.unplaced quiet) = unplacedResult quiet (EStateM.bind x f s) := by
  rw [EStateM.bind, EStateM.bind, h]
  cases x s with
  | ok _ t => exact next t
  | error clash t => rfl

theorem unifyParts_unplaced {n : Nat}
    (ih : ∀ a b s, unifyWithin n a b (unplaced quiet s) = unplacedResult quiet (unifyWithin n a b s))
    (pairs : List (Class × Class)) (s : Store) :
    pairs.forM (fun x => unifyWithin n x.1 x.2) (s.unplaced quiet) =
      unplacedResult quiet (pairs.forM (fun x => unifyWithin n x.1 x.2) s) := by
  induction pairs generalizing s with
  | nil => rfl
  | cons x pairs rest => exact bind_unplaced (ih x.1 x.2 s) rest

/-- Unification does not look at places, and a step that is noted changes no class. -/
theorem unifyWithin_unplaced (n : Nat) (a b : Class) (s : Store) :
    unifyWithin n a b (s.unplaced quiet) = unplacedResult quiet (unifyWithin n a b s) := by
  induction n generalizing a b s with
  | zero => rfl
  | succ n ih =>
    by_cases eq : s.find a = s.find b
    · rw [unifyWithin_same eq, unifyWithin_same (s := s.unplaced quiet) eq, record_unplaced]
      rfl
    by_cases openA : s.shape (s.find a) = .any <;> by_cases openB : s.shape (s.find b) = .any
    · rw [unifyWithin_open eq openA openB, unifyWithin_open (s := s.unplaced quiet) eq
        (by simpa) (by simpa), merge_unplaced]
      rfl
    · rw [unifyWithin_open_left eq openA openB, unifyWithin_open_left (s := s.unplaced quiet) eq
        (by simpa) (by simpa)]
      simp only [occurs_unplaced, find_unplaced, record_unplaced, merge_unplaced]
      split <;> rfl
    · rw [unifyWithin_open_right eq openA openB, unifyWithin_open_right (s := s.unplaced quiet) eq
        (by simpa) (by simpa)]
      simp only [occurs_unplaced, find_unplaced, record_unplaced, merge_unplaced]
      split <;> rfl
    · rw [unifyWithin_known eq openA openB, unifyWithin_known (s := s.unplaced quiet) eq
        (by simpa) (by simpa)]
      simp only [shape_unplaced, find_unplaced, record_unplaced, noteParts_unplaced]
      split
      · refine bind_unplaced (unifyParts_unplaced ih _ _) fun t => ?_
        exact congrArg (EStateM.Result.ok ()) (merge_unplaced t _ _)
      · rfl

theorem unify_unplaced (a b : Class) (s : Store) : (s.unplaced quiet).unify a b =
    ((s.unify a b).1.mapError Mismatch.unplaced, (s.unify a b).2.unplaced quiet) := by
  rw [unify, unify, size_unplaced, unifyWithin_unplaced]
  cases unifyWithin s.size a b s with
  | ok _ t => rfl
  | error clash t =>
    simp only [unplacedResult, resolve_unplaced, span_unplaced]
    rfl

end Unify

end Store

end Ordinance
