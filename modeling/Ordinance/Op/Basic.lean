import Ordinance.Ty.Basic

namespace Ordinance

/-- The kind of operand at which an arithmetic operator or a comparison is used. -/
inductive Operand where
  | int
  | rat
  | money
  | date
  | duration
deriving DecidableEq

def Operand.ty : Operand → BaseTy
  | .int => .int
  | .rat => .rat
  | .money => .money
  | .date => .date
  | .duration => .duration

/-- What evaluating a log operator writes down. -/
inductive LogEvent where
  | definition
  | callBegin
  | callEnd
  | recordIfTrue
deriving DecidableEq

/-- `resolveDefault` decides a default over options; source programs do not contain it. -/
inductive Op where
  | not
  | minus (k : Operand)
  | intToRat
  | moneyToRat
  | ratToMoney
  | roundRat
  | roundMoney
  | day
  | month
  | year
  | monthStart
  | monthEnd
  | length
  | log (e : LogEvent)
  | and
  | or
  | xor
  | add (k : Operand)
  | sub (k : Operand)
  | mul (k : Operand)
  | div (k : Operand)
  | lt (k : Operand)
  | le (k : Operand)
  | gt (k : Operand)
  | ge (k : Operand)
  | eq
  | ne
  | concat
  | map
  | filter
  | fold
  | reduce
  | resolveDefault
deriving DecidableEq

namespace Op

def arity : Op → Nat
  | not | minus _ | intToRat | moneyToRat | ratToMoney | roundRat | roundMoney | day | month | year
  | monthStart | monthEnd | length | log _ => 1
  | and | or | xor | add _ | sub _ | mul _ | div _ | lt _ | le _ | gt _ | ge _ | eq | ne | concat
  | map | filter => 2
  | fold | reduce | resolveDefault => 3

/-- The operators that apply a function to the elements of an array. -/
def isHigherOrder : Op → Bool
  | map | filter | fold | reduce => true
  | _ => false

def name : Op → String
  | not => "not"
  | minus _ => "-"
  | intToRat => "integer_to_decimal"
  | moneyToRat => "money_to_decimal"
  | ratToMoney => "decimal_to_money"
  | roundRat => "round_decimal"
  | roundMoney => "round_money"
  | day => "get_day"
  | month => "get_month"
  | year => "get_year"
  | monthStart => "first_day_of_month"
  | monthEnd => "last_day_of_month"
  | length => "length"
  | log _ => "log"
  | and => "and"
  | or => "or"
  | xor => "xor"
  | add _ => "+"
  | sub _ => "-"
  | mul _ => "*"
  | div _ => "/"
  | lt _ => "<"
  | le _ => "<="
  | gt _ => ">"
  | ge _ => ">="
  | eq => "="
  | ne => "!="
  | concat => "++"
  | map => "map"
  | filter => "filter"
  | fold => "fold"
  | reduce => "reduce"
  | resolveDefault => "handle_default_optional"

def operand? : Op → Option Operand
  | minus k | add k | sub k | mul k | div k | lt k | le k | gt k | ge k => some k
  | _ => none

/-- The name, and in brackets the operand type of an operator that has instances. -/
def render (o : Op) : String :=
  match o.operand? with
  | some k => o.name ++ "[" ++ k.ty.name ++ "]"
  | none => o.name

end Op

end Ordinance
