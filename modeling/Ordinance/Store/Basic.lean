import Ordinance.Span
import Ordinance.Store.Shape
import Ordinance.Ty.Render

namespace Ordinance

/-- A class of types that are known to be equal, by the number of any of its members. -/
abbrev Class := Nat

/-- One level of structure over classes, and where it came from. -/
structure Cell where
  shape : Shape Class
  span : Span
deriving DecidableEq

inductive Action where
  | identity
  | decompose
  | absorb
  | occursCheck
  | error
deriving DecidableEq

/-- A step of unification, with both sides as they read when it was taken. -/
structure Step where
  number : Nat
  action : Action
  left : String
  right : String
  detail : String
deriving DecidableEq

/-- Cells are numbered as they are made and never change. The leader of a class is the member whose
cell describes it, so a merge is a choice of leader. -/
structure Store where
  cells : Array Cell
  leaders : Array Class
  tracing : Bool
  trace : Array Step

namespace Store

def empty (tracing : Bool) : Store := ⟨#[], #[], tracing, #[]⟩

def size (s : Store) : Nat := s.cells.size

def find (s : Store) (v : Class) : Class := s.leaders[v]?.getD v

def cell (s : Store) (v : Class) : Cell := s.cells[s.find v]?.getD ⟨.any, .synthetic⟩

def shape (s : Store) (v : Class) : Shape Class := (s.cell v).shape

def span (s : Store) (v : Class) : Span := (s.cell v).span

/-- The least member of the class of `v`. -/
def least (s : Store) (v : Class) : Class :=
  ((List.range s.size).find? fun u => s.find u == s.find v).getD v

/-- A new class, led by itself. -/
def alloc (shape : Shape Class) (span : Span) : StateM Store Class := fun s =>
  (s.size, { s with cells := s.cells.push ⟨shape, span⟩, leaders := s.leaders.push s.size })

/-- Joins two classes. The second leads, unless it is open and the first is not. -/
def merge (s : Store) (a b : Class) : Store :=
  let a := s.find a
  let b := s.find b
  let (lead, follow) := if (s.shape b).isAny && !(s.shape a).isAny then (a, b) else (b, a)
  { s with leaders := s.leaders.map fun v => if v = follow then lead else v }

/-- The type of a class read down to `depth` levels. -/
def resolveWithin (s : Store) : Nat → Class → Ty
  | 0, _ => .any
  | depth + 1, v => .ofShape ((s.shape v).map (s.resolveWithin depth))

/-- The type of a class; open parts are `any`. No chain of parts is longer than the store, since a
class is never a part of itself. -/
def resolve (s : Store) (v : Class) : Ty := s.resolveWithin s.size v

mutual

/-- A class for a type, made after the classes of its parts. Every `any` is a class of its own. -/
def load (span : Span) : Ty → StateM Store Class
  | .base b => alloc (.base b) span
  | .arrow ps r => do
      let ps ← loadAll span ps
      let r ← load span r
      alloc (.arrow ps r) span
  | .tuple ts => do
      let ts ← loadAll span ts
      alloc (.tuple ts) span
  | .struct n => alloc (.struct n) span
  | .enum n => alloc (.enum n) span
  | .option t => do
      let t ← load span t
      alloc (.option t) span
  | .array t => do
      let t ← load span t
      alloc (.array t) span
  | .any => alloc .any span

def loadAll (span : Span) : List Ty → StateM Store (List Class)
  | [] => pure []
  | t :: ts => do
      let t ← load span t
      let ts ← loadAll span ts
      return t :: ts

end

/-- Makes a class for every shape in turn, whose parts count from the first of them; the last class
is the answer. -/
def instantiate (shapes : List (Shape Nat)) (span : Span) : StateM Store Class := do
  let start := (← get).size
  shapes.foldlM (fun _ shape => alloc (shape.map (start + ·)) span) start

end Store

end Ordinance
