import Ordinance.Ty.Basic

namespace Ordinance

/-- One level of a type over parts of any kind. -/
inductive Shape (α : Type) where
  | base (b : BaseTy)
  | arrow (params : List α) (result : α)
  | tuple (parts : List α)
  | struct (name : String)
  | enum (name : String)
  | option (t : α)
  | array (t : α)
  | any
deriving DecidableEq

namespace Shape

variable {α β : Type}

def isAny : Shape α → Bool
  | any => true
  | _ => false

def map (f : α → β) : Shape α → Shape β
  | base b => base b
  | arrow ps r => arrow (ps.map f) (f r)
  | tuple ts => tuple (ts.map f)
  | struct n => struct n
  | enum n => enum n
  | option t => option (f t)
  | array t => array (f t)
  | any => any

/-- The parts; the result of a function comes before its parameters. -/
def parts : Shape α → List α
  | arrow ps r => r :: ps
  | tuple ts => ts
  | option t | array t => [t]
  | base _ | struct _ | enum _ | any => []

/-- The shapes differ in their parts at most, and have equally many of them. -/
def agrees : Shape α → Shape β → Bool
  | base a, base b => a == b
  | arrow ps _, arrow qs _ => ps.length == qs.length
  | tuple ts, tuple us => ts.length == us.length
  | struct m, struct n => m == n
  | enum m, enum n => m == n
  | option _, option _ => true
  | array _, array _ => true
  | any, any => true
  | _, _ => false

end Shape

def Ty.ofShape : Shape Ty → Ty
  | .base b => .base b
  | .arrow ps r => .arrow ps r
  | .tuple ts => .tuple ts
  | .struct n => .struct n
  | .enum n => .enum n
  | .option t => .option t
  | .array t => .array t
  | .any => .any

end Ordinance
