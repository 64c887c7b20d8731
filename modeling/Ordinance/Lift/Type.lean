import Ordinance.Decls
import Ordinance.Expr.Basic

namespace Ordinance

mutual

/-- The type of a value once absence is part of the data: elements of arrays and results of
functions are options, and a delayed value is the value. -/
def Ty.lift : Ty → Ty
  | .arrow [.base .unit] r => Ty.lift r
  | .arrow ps r => .arrow (Ty.liftAll ps) (.option (Ty.lift r))
  | .tuple ts => .tuple (Ty.liftAll ts)
  | .option t => .option (Ty.lift t)
  | .array t => .array (.option (Ty.lift t))
  | .base b => .base b
  | .struct n => .struct n
  | .enum n => .enum n
  | .any => .any

def Ty.liftAll : List Ty → List Ty
  | [] => []
  | t :: ts => Ty.lift t :: Ty.liftAll ts

end

/-- Fields of structs are options and payloads of enums are not; the enum of options is declared. -/
def Decls.lift (d : Decls) : Decls where
  structs := d.structs.mapValues (·.mapValues fun t => .option t.lift)
  enums :=
    (d.enums.mapValues (·.mapValues Ty.lift)).insert Optional.enum
      (.ofList [(Optional.absent, .unit), (Optional.present, .any)])

end Ordinance
