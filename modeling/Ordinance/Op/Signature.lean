import Ordinance.Op.Basic
import Ordinance.Store.Shape

namespace Ordinance.Op

/-- The shapes of a function between base types. -/
def plain (params : List BaseTy) (result : BaseTy) : List (Shape Nat) :=
  params.map .base ++ [.base result, .arrow (List.range params.length) params.length]

/-- The type of an operator as shapes over those before them, its own shape last. An operator that
takes values of any type takes the same one wherever it names the same shape. Dates are neither
negated nor multiplied nor divided. -/
def signature : Op → Option (List (Shape Nat))
  | not => plain [.bool] .bool
  | and | or | xor => plain [.bool, .bool] .bool
  | minus .date => none
  | minus k => plain [k.ty] k.ty
  | intToRat => plain [.int] .rat
  | moneyToRat => plain [.money] .rat
  | ratToMoney => plain [.rat] .money
  | roundRat => plain [.rat] .rat
  | roundMoney => plain [.money] .money
  | day | month | year => plain [.date] .int
  | monthStart | monthEnd => plain [.date] .date
  | add .date | sub .date => plain [.date, .date] .duration
  | add k | sub k => plain [k.ty, k.ty] k.ty
  | mul .date | div .date => none
  | mul .money => plain [.money, .rat] .money
  | mul .duration => plain [.duration, .int] .duration
  | mul k => plain [k.ty, k.ty] k.ty
  | div .money => plain [.money, .money] .rat
  | div .duration => plain [.duration, .duration] .rat
  | div k => plain [k.ty, k.ty] k.ty
  | lt k | le k | gt k | ge k => plain [k.ty, k.ty] .bool
  | eq | ne => some [.any, .base .bool, .arrow [0, 0] 1]
  | log _ => some [.any, .arrow [0] 0]
  | length => some [.any, .array 0, .base .int, .arrow [1] 2]
  | concat => some [.any, .array 0, .arrow [1, 1] 1]
  | map => some [.any, .any, .arrow [0] 1, .array 0, .array 1, .arrow [2, 3] 4]
  | filter => some [.any, .base .bool, .arrow [0] 1, .array 0, .arrow [2, 3] 3]
  | fold => some [.any, .any, .arrow [1, 0] 1, .array 0, .arrow [2, 1, 3] 1]
  | reduce => some [.any, .arrow [0, 0] 0, .array 0, .arrow [1, 0, 2] 0]
  | resolveDefault =>
      some [.any, .option 0, .array 1, .base .unit, .base .bool, .option 4, .arrow [3] 5,
        .arrow [3] 1, .arrow [2, 6, 7] 1]

end Ordinance.Op
