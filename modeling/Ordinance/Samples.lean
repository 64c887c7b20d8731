import Ordinance.Program

namespace Ordinance

/-- The mark of code that stands nowhere. -/
def Mark.blank : Mark := .erased .synthetic

namespace Samples

/-- The mark of code at place `n`. -/
def place (n : Nat) : Mark :=
  let first := min n Span.limit
  .erased ⟨0, first, min (first + 1) Span.limit⟩

def int (value : Int64) (n : Nat) : Expr Mark := .lit (.int value) (place n)

/-- `{ { x > n :- -1 } | true :- x + 1 }` -/
def link (x : Var) (n : Nat) : Expr Mark :=
  let m := place n
  let exception :=
    .default [] (.app (.op (.gt .int) m) [.var x m, int (.ofNat n) n] m) (int (-1) n) m
  .default [exception] (.lit (.bool true) m)
    (.app (.op (.add .int) m) [.var x m, int 1 n] m) m

/-- `count` definitions from place `n` on, each a default over the one before. -/
def links (previous : Option Var) (n : Nat) : Nat → Supply (List (Item Mark))
  | 0 => return []
  | count + 1 => do
      let v ← fresh ("x" ++ n.repr)
      let e := match previous with
        | none => int 0 n
        | some x => link x n
      let items ← links (some v) (n + 1) count
      return .definition ⟨v, .int, e, (place n).span⟩ :: items

def chain (n : Nat) : Supply (Program Mark) := do
  return ⟨default, ← links none 0 n⟩

/-- One definition: the sum of the first `n` integers, by a fold. -/
def sum (n : Nat) : Supply (Program Mark) := do
  let acc ← fresh "acc"
  let x ← fresh "x"
  let m := place 0
  let step :=
    .lam [acc, x] [.any, .any] (.app (.op (.add .int) m) [.var acc m, .var x m] m) m
  let items := .array ((List.range n).map fun i => int (.ofNat i) i) m
  let e := .app (.op .fold m) [step, int 0 0, items] m
  return ⟨default, [.definition ⟨← fresh "total", .int, e, m.span⟩]⟩

end Samples

end Ordinance
