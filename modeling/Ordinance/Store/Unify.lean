import Ordinance.Store.Basic

namespace Ordinance

/-- Why two classes cannot be one: they differ in shape, or one would be a part of itself. -/
inductive Clash where
  | shape
  | infinite
deriving DecidableEq

/-- A side of a failed unification: what it reads as, and where that came from. -/
structure Side where
  ty : Ty
  span : Span
deriving DecidableEq

structure Mismatch where
  expected : Side
  actual : Side
  infinite : Bool
deriving DecidableEq

namespace Store

/-- Whether `part` occurs in `v` within `depth` levels. A longer chain of parts would be endless. -/
def occursWithin (s : Store) (part : Class) : Nat → Class → Bool
  | 0, _ => true
  | depth + 1, v => s.find v == part || (s.shape v).parts.any (s.occursWithin part depth)

def occurs (s : Store) (part v : Class) : Bool := s.occursWithin part s.size v

/-- Adds a step to the trace, if one is kept. -/
def record (action : Action) (left right : Class) (detail : String) (s : Store) : Store :=
  if s.tracing then
    { s with
      trace := s.trace.push
        ⟨s.trace.size + 1, action, (s.resolve left).render, (s.resolve right).render, detail⟩ }
  else s

/-- A merge in progress. A clash leaves the store as it was when it came up. -/
abbrev Merging := EStateM Clash Store

/-- Admits the structure of `other` for the open class `hole`. -/
def absorb (hole other : Class) : Merging Unit := do
  if (← get).occurs hole other then
    modify (record .occursCheck hole other "")
    throw .infinite
  modify (record .absorb hole other "")

/-- The remark on the step that takes a shape apart, for a shape that has parts to compare. -/
def decomposed : Shape Class → Option String
  | .arrow _ _ => some "arrow"
  | .tuple _ => some "tuple"
  | .option _ | .array _ => some ""
  | .base _ | .struct _ | .enum _ | .any => none

/-- Makes `a` and `b` one class: first their parts pairwise, then themselves. -/
def unifyWithin : Nat → Class → Class → Merging Unit
  | 0, _, _ => throw .infinite
  | depth + 1, a, b => do
      let s ← get
      let a := s.find a
      let b := s.find b
      if a = b then
        modify (record .identity a b "")
      else
        match s.shape a, s.shape b with
        | .any, .any => pure ()
        | .any, _ => absorb a b
        | _, .any => absorb b a
        | p, q =>
            if p.agrees q then
              if let some detail := decomposed p then
                modify (record .decompose a b detail)
              (p.parts.zip q.parts).forM fun (c, d) => unifyWithin depth c d
            else
              modify (record .error a b "")
              throw .shape
        modify (merge · a b)

/-- Unifies two classes, or leaves all classes as they were and says how they read. The steps that
were taken stay in the trace. -/
def unify (expected actual : Class) (s : Store) : Except Mismatch Unit × Store :=
  match unifyWithin s.size expected actual s with
  | .ok () s => (.ok (), s)
  | .error clash after =>
      (.error {
        expected := ⟨s.resolve expected, s.span expected⟩
        actual := ⟨s.resolve actual, s.span actual⟩
        infinite := clash == .infinite },
      { s with trace := after.trace })

end Store

end Ordinance
