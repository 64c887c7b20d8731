namespace Ordinance

/-- A variable is known by its number; its name is what it is shown as. -/
structure Var where
  id : Nat
  name : String
deriving DecidableEq

namespace Var

def render (v : Var) : String := v.name ++ "_" ++ v.id.repr

instance : Ord Var := ⟨compareLex (compareOn id) (compareOn name)⟩

instance : Std.TransOrd Var :=
  inferInstanceAs (Std.TransCmp (compareLex (compareOn id) (compareOn name)))

instance : Std.LawfulEqOrd Var where
  eq_of_compare {a b} h := by
    change compareLex (compareOn id) (compareOn name) a b = .eq at h
    rw [compareLex_eq_eq] at h
    obtain ⟨i, n⟩ := a
    obtain ⟨j, m⟩ := b
    have hi := Std.LawfulEqOrd.eq_of_compare (α := Nat) h.1
    have hn := Std.LawfulEqOrd.eq_of_compare (α := String) h.2
    simp_all

end Var

/-- Computations that draw on the numbers from the state upwards, each at most once. -/
abbrev Supply := StateM Nat

def fresh (name : String) : Supply Var := fun n => (⟨n, name⟩, n + 1)

/-- A new variable shown under the same name. -/
def Var.refresh (v : Var) : Supply Var := fresh v.name

def freshMany (name : String) : Nat → Supply (List Var)
  | 0 => pure []
  | n + 1 => do
      let v ← fresh name
      let vs ← freshMany name n
      return v :: vs

end Ordinance
