namespace Ordinance

/-- The bytes from `first` up to `last` of a source file. -/
structure Span where
  file : Nat
  first : Nat
  last : Nat
deriving DecidableEq, Inhabited

/-- The greatest offset and the greatest file number. -/
def Span.limit : Nat := 4294967295

/-- The span of code that no source text stands for. -/
def Span.synthetic : Span := ⟨limit, 0, 0⟩

def Span.isSynthetic (s : Span) : Bool := s.file == limit

end Ordinance
