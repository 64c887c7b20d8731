import Ordinance.Dict
import Ordinance.Ty.Basic

namespace Ordinance

/-- The types of the fields of a struct, or of the payloads of an enum. -/
abbrev Layout := Dict String Ty

structure Decls where
  structs : Dict String Layout
  enums : Dict String Layout
deriving DecidableEq, Inhabited

namespace Decls

def field? (d : Decls) (struct name : String) : Option Ty :=
  (d.structs.get? struct).bind (·.get? name)

end Decls

end Ordinance
