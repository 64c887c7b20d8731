import Ordinance.Literal
import Ordinance.Op.Basic
import Ordinance.Span
import Ordinance.Var

namespace Ordinance

/-- `empty` says that no definition applies, `conflict` that more than one does. -/
inductive Exn where
  | empty
  | noValue
  | conflict
  | assertionFailed
deriving DecidableEq

def Exn.name : Exn → String
  | .empty => "EmptyError"
  | .noValue => "NoValueProvided"
  | .conflict => "ConflictError"
  | .assertionFailed => "AssertionFailed"

/-- A reference that the environment resolves, and not a binder: a variable of the scope, or a
variable of a scope that is called under a nickname. -/
inductive Location where
  | scopeVar (var : String)
  | subScopeVar (scope nickname var : String)
deriving DecidableEq

def Location.render : Location → String
  | .scopeVar var => var
  | .subScopeVar _ nickname var => nickname ++ "." ++ var

/-- The enum of a value that may be absent. -/
def Optional.enum : String := "Optional"

def Optional.absent : String := "Absent"

def Optional.present : String := "Present"

/-- What a node knows of itself: where it stands and its type, `any` while that is open. -/
structure Mark where
  span : Span
  ty : Ty
deriving DecidableEq

def Mark.erased (span : Span) : Mark := ⟨span, .any⟩

/-- Expressions with a mark at every node. Fields and cases are listed in ascending order of name,
and every case is a function of the payload. -/
inductive Expr (μ : Type) where
  | var (v : Var) (mark : μ)
  | lit (l : Literal) (mark : μ)
  | tuple (items : List (Expr μ)) (mark : μ)
  | component (e : Expr μ) (index size : Nat) (mark : μ)
  | record (struct : String) (fields : List (String × Expr μ)) (mark : μ)
  | field (e : Expr μ) (struct name : String) (mark : μ)
  | inject (enum ctor : String) (e : Expr μ) (mark : μ)
  | switch (e : Expr μ) (enum : String) (cases : List (String × Expr μ)) (mark : μ)
  | op (o : Op) (mark : μ)
  | app (f : Expr μ) (args : List (Expr μ)) (mark : μ)
  | lam (params : List Var) (tys : List Ty) (body : Expr μ) (mark : μ)
  | default (exceptions : List (Expr μ)) (just cons : Expr μ) (mark : μ)
  | raise (x : Exn) (mark : μ)
  | rescue (body : Expr μ) (x : Exn) (handler : Expr μ) (mark : μ)
  | force (e : Expr μ) (mark : μ)
  | array (items : List (Expr μ)) (mark : μ)
  | ite (cond yes no : Expr μ) (mark : μ)
  | assert (e : Expr μ) (mark : μ)
  | location (l : Location) (mark : μ)

namespace Expr

variable {μ ν : Type}

def mark : Expr μ → μ
  | var _ m | lit _ m | tuple _ m | component _ _ _ m | record _ _ m | field _ _ _ m
  | inject _ _ _ m | switch _ _ _ m | op _ m | app _ _ m | lam _ _ _ m | default _ _ _ m
  | raise _ m | rescue _ _ _ m | force _ m | array _ m | ite _ _ _ m | assert _ m
  | location _ m => m

def setMark (m : μ) : Expr μ → Expr μ
  | var v _ => var v m
  | lit l _ => lit l m
  | tuple es _ => tuple es m
  | component e i n _ => component e i n m
  | record s fs _ => record s fs m
  | field e s f _ => field e s f m
  | inject n c e _ => inject n c e m
  | switch e n cs _ => switch e n cs m
  | op o _ => op o m
  | app f es _ => app f es m
  | lam ps ts b _ => lam ps ts b m
  | default es j c _ => default es j c m
  | raise x _ => raise x m
  | rescue b x h _ => rescue b x h m
  | force e _ => force e m
  | array es _ => array es m
  | ite c a b _ => ite c a b m
  | assert e _ => assert e m
  | location l _ => location l m

/-- The direct parts, in the order in which they are evaluated. -/
def children : Expr μ → List (Expr μ)
  | var .. | lit .. | op .. | raise .. | location .. => []
  | tuple es _ | array es _ => es
  | component e _ _ _ | field e _ _ _ | inject _ _ e _ | force e _ | assert e _ => [e]
  | record _ fs _ => fs.map (·.2)
  | switch e _ cs _ => e :: cs.map (·.2)
  | app f es _ => f :: es
  | lam _ _ b _ => [b]
  | default es j c _ => es ++ [j, c]
  | rescue b _ h _ => [b, h]
  | ite c a b _ => [c, a, b]

/-- A node without its mark and its parts. -/
inductive Head where
  | var (v : Var)
  | lit (l : Literal)
  | tuple (count : Nat)
  | component (index size : Nat)
  | record (struct : String) (names : List String)
  | field (struct name : String)
  | inject (enum ctor : String)
  | switch (enum : String) (names : List String)
  | op (o : Op)
  | app (count : Nat)
  | lam (params : List Var) (tys : List Ty)
  | default (count : Nat)
  | raise (x : Exn)
  | rescue (x : Exn)
  | force
  | array (count : Nat)
  | ite
  | assert
  | location (l : Location)
deriving DecidableEq

def head : Expr μ → Head
  | var v _ => .var v
  | lit l _ => .lit l
  | tuple es _ => .tuple es.length
  | component _ i n _ => .component i n
  | record s fs _ => .record s (fs.map (·.1))
  | field _ s f _ => .field s f
  | inject n c _ _ => .inject n c
  | switch _ n cs _ => .switch n (cs.map (·.1))
  | op o _ => .op o
  | app _ es _ => .app es.length
  | lam ps ts _ _ => .lam ps ts
  | default es _ _ _ => .default es.length
  | raise x _ => .raise x
  | rescue _ x _ _ => .rescue x
  | force .. => .force
  | array es _ => .array es.length
  | ite .. => .ite
  | assert .. => .assert
  | location l _ => .location l

end Expr

end Ordinance
