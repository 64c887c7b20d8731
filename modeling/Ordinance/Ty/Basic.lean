namespace Ordinance

inductive BaseTy where
  | bool
  | int
  | rat
  | money
  | date
  | duration
  | unit
deriving DecidableEq, Inhabited

def BaseTy.all : List BaseTy := [.bool, .int, .rat, .money, .date, .duration, .unit]

def BaseTy.name : BaseTy → String
  | .bool => "boolean"
  | .int => "integer"
  | .rat => "decimal"
  | .money => "money"
  | .date => "date"
  | .duration => "duration"
  | .unit => "unit"

/-- Functions take all their arguments at once. `any` stands for a type that nothing constrains. -/
inductive Ty where
  | base (b : BaseTy)
  | arrow (params : List Ty) (result : Ty)
  | tuple (parts : List Ty)
  | struct (name : String)
  | enum (name : String)
  | option (t : Ty)
  | array (t : Ty)
  | any
deriving Inhabited

namespace Ty

abbrev bool : Ty := base .bool
abbrev int : Ty := base .int
abbrev unit : Ty := base .unit

mutual

def decEq : (t u : Ty) → Decidable (t = u)
  | base a, base b => decidable_of_iff (a = b) (by simp)
  | arrow ps r, arrow qs s =>
      match decEqAll ps qs, decEq r s with
      | .isTrue hp, .isTrue hr => .isTrue (by rw [hp, hr])
      | .isFalse hp, _ => .isFalse (by simp [hp])
      | _, .isFalse hr => .isFalse (by simp [hr])
  | tuple ts, tuple us =>
      match decEqAll ts us with
      | .isTrue h => .isTrue (by rw [h])
      | .isFalse h => .isFalse (by simp [h])
  | struct a, struct b => decidable_of_iff (a = b) (by simp)
  | enum a, enum b => decidable_of_iff (a = b) (by simp)
  | option t, option u =>
      match decEq t u with
      | .isTrue h => .isTrue (by rw [h])
      | .isFalse h => .isFalse (by simp [h])
  | array t, array u =>
      match decEq t u with
      | .isTrue h => .isTrue (by rw [h])
      | .isFalse h => .isFalse (by simp [h])
  | any, any => .isTrue rfl
  | base _, arrow _ _ | base _, tuple _ | base _, struct _ | base _, enum _ | base _, option _
  | base _, array _ | base _, any | arrow _ _, base _ | arrow _ _, tuple _ | arrow _ _, struct _
  | arrow _ _, enum _ | arrow _ _, option _ | arrow _ _, array _ | arrow _ _, any
  | tuple _, base _ | tuple _, arrow _ _ | tuple _, struct _ | tuple _, enum _ | tuple _, option _
  | tuple _, array _ | tuple _, any | struct _, base _ | struct _, arrow _ _ | struct _, tuple _
  | struct _, enum _ | struct _, option _ | struct _, array _ | struct _, any | enum _, base _
  | enum _, arrow _ _ | enum _, tuple _ | enum _, struct _ | enum _, option _ | enum _, array _
  | enum _, any | option _, base _ | option _, arrow _ _ | option _, tuple _ | option _, struct _
  | option _, enum _ | option _, array _ | option _, any | array _, base _ | array _, arrow _ _
  | array _, tuple _ | array _, struct _ | array _, enum _ | array _, option _ | array _, any
  | any, base _ | any, arrow _ _ | any, tuple _ | any, struct _ | any, enum _ | any, option _
  | any, array _ => .isFalse nofun

def decEqAll : (ts us : List Ty) → Decidable (ts = us)
  | [], [] => .isTrue rfl
  | [], _ :: _ | _ :: _, [] => .isFalse nofun
  | t :: ts, u :: us =>
      match decEq t u, decEqAll ts us with
      | .isTrue h, .isTrue hs => .isTrue (by rw [h, hs])
      | .isFalse h, _ => .isFalse (by simp [h])
      | _, .isFalse hs => .isFalse (by simp [hs])

end

instance : DecidableEq Ty := decEq

def isAny : Ty → Bool
  | any => true
  | _ => false

/-- A function of the unit value only: a delayed value. -/
def isThunk : Ty → Bool
  | arrow [base .unit] _ => true
  | _ => false

mutual

/-- No part of the type is `any`. -/
def isConcrete : Ty → Bool
  | any => false
  | base _ | struct _ | enum _ => true
  | arrow ps r => allConcrete ps && isConcrete r
  | tuple ts => allConcrete ts
  | option t | array t => isConcrete t

def allConcrete : List Ty → Bool
  | [] => true
  | t :: ts => isConcrete t && allConcrete ts

end

end Ty

end Ordinance
