import Ordinance.Ty.Basic
import Ordinance.Word

namespace Ordinance

structure Date where
  year : Int
  month : Nat
  day : Nat
deriving DecidableEq

/-- A ratio is `num / den`, an amount of money counts cents. -/
inductive Literal where
  | bool (b : Bool)
  | int (n : Int64)
  | rat (num den : Int64)
  | money (cents : Int64)
  | date (d : Date)
  | duration (years months days : Int32)
  | unit
deriving DecidableEq

namespace Literal

def ty : Literal → BaseTy
  | bool _ => .bool
  | int _ => .int
  | rat _ _ => .rat
  | money _ => .money
  | date _ => .date
  | duration _ _ _ => .duration
  | unit => .unit

/-- The ratio `num / den` in lowest terms over a positive denominator, if there is such a ratio
and both its parts are words. -/
def ratio (num den : Int64) : OptionT Word.Checked Literal :=
  if den = 0 then failure
  else do
    let g := Word.widenUnsigned (← Word.gcd (Word.magnitude num) (Word.magnitude den))
    let n ← Word.narrow (← Word.div (← Word.mul (Word.sign den) (Word.widen num)) g)
    let d ← Word.narrow (← Word.div (← Word.abs (Word.widen den)) g)
    return .rat n d

/-- The same as a value: no operation stops it. -/
def ratio? (num den : Int64) : Option Literal := (ratio num den).run.toOption.join

end Literal

end Ordinance
