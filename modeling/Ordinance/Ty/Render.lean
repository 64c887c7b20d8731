import Ordinance.Ty.Basic

namespace Ordinance.Ty

mutual

/-- The text of a type. A single parameter stands bare unless it is itself a function. -/
def render : Ty → String
  | base b => b.name
  | arrow [arrow ps q] r => "(" ++ render (arrow ps q) ++ ") -> " ++ render r
  | arrow [p] r => render p ++ " -> " ++ render r
  | arrow ps r => "(" ++ ", ".intercalate (renderAll ps) ++ ") -> " ++ render r
  | tuple ts => "(" ++ " * ".intercalate (renderAll ts) ++ ")"
  | struct n | enum n => n
  | option t => "option<" ++ render t ++ ">"
  | array t => "array<" ++ render t ++ ">"
  | any => "any"

def renderAll : List Ty → List String
  | [] => []
  | t :: ts => render t :: renderAll ts

end

end Ordinance.Ty
