import Ordinance.Expr.Traversal
import Ordinance.Op.Signature
import Ordinance.Typing.Env
import Ordinance.Typing.Error

namespace Ordinance.Typing

/-- A node whose type is still a class of the store. -/
structure Pending where
  span : Span
  cls : Class
deriving DecidableEq

/-- The classes of the variables bound around an expression. -/
abbrev Locals := Dict Var Class

abbrev TypeM := StateT Store (Except Error)

def fail {α : Type} (fault : Fault) (span : Span) : TypeM α := throw ⟨fault, span⟩

def alloc (shape : Shape Class) (span : Span) : TypeM Class := modifyGet (Store.alloc shape span)

def load (t : Ty) (span : Span) : TypeM Class := modifyGet (Store.load span t)

def loadAll (ts : List Ty) (span : Span) : TypeM (List Class) := modifyGet (Store.loadAll span ts)

def shapeOf (c : Class) : TypeM (Shape Class) := do return (← get).shape c

def unify (expected actual : Class) (span : Span) : TypeM Unit := do
  match (← get).unify expected actual with
  | (.ok (), s) => set s
  | (.error m, _) => fail (.mismatch m) span

/-- What a name stands for, or the fault that nothing does. -/
def resolved {α : Type} (found : Option α) (kind : NameKind) (name : String) (span : Span) :
    TypeM α :=
  match found with
  | some a => pure a
  | none => fail (.unresolved kind name) span

def counted (what : String) (expected got : Nat) (span : Span) : TypeM Unit :=
  if expected = got then pure () else fail (.arity what expected got) span

/-- A class for the type a node came with, unless that is open. -/
def writtenClass (m : Mark) : TypeM (Option Class) :=
  if m.ty.isAny then pure none else some <$> load m.ty m.span

/-- The type a node came with meets the goal before the node is looked at. -/
def announce (goal : Option Class) (m : Mark) : TypeM Unit := do
  if let some g := goal then
    if let some c ← writtenClass m then unify g c m.span

/-- The mark of a node whose class is that of its goal or, with no goal, `c`; then the type it came
with meets `c`. -/
def conclude (goal : Option Class) (c : Class) (m : Mark) : TypeM Pending := do
  match goal with
  | some g => return ⟨m.span, g⟩
  | none =>
      if let some a ← writtenClass m then unify a c m.span
      return ⟨m.span, c⟩

/-- The mark of a node that was found to have class `c` without regard to its goal. -/
def settle (goal : Option Class) (c : Class) (m : Mark) : TypeM Pending := do
  if let some g := goal then unify g c m.span
  conclude goal c m

/-- The goal, or a new open class. -/
def goalOrNew (goal : Option Class) (span : Span) : TypeM Class :=
  match goal with
  | some g => pure g
  | none => alloc .any span

/-- How far the goal is known; nothing is known of no goal. -/
def goalShape (goal : Option Class) : TypeM (Shape Class) :=
  match goal with
  | some g => shapeOf g
  | none => pure .any

/-- The parts of a tuple of `n` parts. -/
def tupleParts (n : Nat) : Shape Class → Option (List Class)
  | .tuple cs => if cs.length = n then some cs else none
  | _ => none

/-- The classes of binders from the types written at them. -/
def binders (params : List Var) (tys : List Ty) (span : Span) : TypeM (List Class) := do
  counted "parameter types" params.length tys.length span
  loadAll tys span

def unifyEach (span : Span) : List (Class × Class) → TypeM Unit
  | [] => pure ()
  | (a, b) :: rest => do
      unify a b span
      unifyEach span rest

/-- A local variable has its binder's class; any other has its own copy of the type it is known by. -/
def varClass (env : Env) (locals : Locals) (v : Var) (span : Span) : TypeM Class :=
  match locals.get? v with
  | some c => pure c
  | none => do
      let t ← resolved (env.var? v) .variable v.render span
      load t span

def locationType (env : Env) (span : Span) : Location → TypeM Ty
  | .scopeVar x => resolved (env.scopeVar? x) .scopeVariable x span
  | .subScopeVar scope nickname x =>
      resolved (env.subScopeVar? scope x) .subScopeVariable (nickname ++ "." ++ x) span

def allocMany (span : Span) : Nat → TypeM (List Class)
  | 0 => pure []
  | n + 1 => do
      let c ← alloc .any span
      let cs ← allocMany span n
      return c :: cs

/-- A class for every case of an enum, in order. -/
def loadCases (span : Span) : List (String × Ty) → TypeM (List (String × Class))
  | [] => pure []
  | (name, t) :: rest => do
      let c ← load t span
      let cs ← loadCases span rest
      return (name, c) :: cs

/-- The class of the values of an enum, and the classes of the payloads of its cases. -/
def enumClasses (decls : Decls) (enum : String) (span : Span) :
    TypeM (Class × Dict String Class) := do
  if enum = Optional.enum then
    let payload ← alloc .any span
    let unit ← alloc (.base .unit) span
    let cls ← alloc (.option payload) span
    return (cls, .ofList [(Optional.absent, unit), (Optional.present, payload)])
  else
    let layout ← resolved (decls.enums.get? enum) .enum enum span
    let payloads ← loadCases span layout.entries
    let cls ← alloc (.enum enum) span
    return (cls, .ofList payloads)

/-- The greatest count a component is compared with. -/
def countLimit : Nat := 18446744073709551615

mutual

/-- Finds the class of every node. With a goal the expression is checked against it; with none its
class is put together from its parts. -/
def elaborate (decls : Decls) (env : Env) (locals : Locals) (goal : Option Class) :
    Expr Mark → TypeM (Expr Pending)
  | .var v m => do
      announce goal m
      let c ← varClass env locals v m.span
      return .var v (← settle goal c m)
  | .lit l m => do
      announce goal m
      let c ← alloc (.base l.ty) m.span
      return .lit l (← settle goal c m)
  | .tuple es m => do
      announce goal m
      match goal, tupleParts es.length (← goalShape goal) with
      | some g, some cs =>
          let es ← elaborateEach decls env locals (cs.map some) es
          return .tuple es ⟨m.span, g⟩
      | _, _ =>
          let es ← elaborateEach decls env locals [] es
          let c ← alloc (.tuple (es.map (·.mark.cls))) m.span
          return .tuple es (← settle goal c m)
  | .component e index size m => do
      announce goal m
      if index < size then
        let cs ← allocMany m.span size
        let c ← alloc (.tuple cs) m.span
        let e ← elaborate decls env locals (some c) e
        return .component e index size (← settle goal (cs.getD index c) m)
      else
        fail (.arity "components in tuple access" size (min (index + 1) countLimit)) m.span
  | .record struct fields m => do
      announce goal m
      let layout ← resolved (decls.structs.get? struct) .struct struct m.span
      let fields ← elaborateNamed decls env locals (fun name span => do
        let t ← resolved (layout.get? name) .field (struct ++ "." ++ name) span
        load t span) fields
      counted ("fields of struct " ++ struct) layout.size fields.length m.span
      let c ← alloc (.struct struct) m.span
      return .record struct fields (← settle goal c m)
  | .field e struct name m => do
      announce goal m
      let layout ← resolved (decls.structs.get? struct) .struct struct m.span
      let t ← resolved (layout.get? name) .field (struct ++ "." ++ name) m.span
      let record ← alloc (.struct struct) m.span
      let e ← elaborate decls env locals (some record) e
      let c ← load t m.span
      return .field e struct name (← settle goal c m)
  | .inject enum ctor e m => do
      announce goal m
      if enum = Optional.enum then
        if ctor = Optional.absent then
          let unit ← alloc (.base .unit) m.span
          let e ← elaborate decls env locals (some unit) e
          let payload ← alloc .any m.span
          let c ← alloc (.option payload) m.span
          return .inject enum ctor e (← settle goal c m)
        else if ctor = Optional.present then
          match goal, ← goalShape goal with
          | some g, .option payload =>
              let e ← elaborate decls env locals (some payload) e
              return .inject enum ctor e ⟨m.span, g⟩
          | _, _ =>
              let e ← elaborate decls env locals none e
              let c ← alloc (.option e.mark.cls) m.span
              return .inject enum ctor e (← settle goal c m)
        else
          fail (.unresolved .constructor (enum ++ "." ++ ctor)) m.span
      else
        let layout ← resolved (decls.enums.get? enum) .enum enum m.span
        let t ← resolved (layout.get? ctor) .constructor (enum ++ "." ++ ctor) m.span
        let payload ← load t m.span
        let e ← elaborate decls env locals (some payload) e
        let c ← alloc (.enum enum) m.span
        return .inject enum ctor e (← settle goal c m)
  | .switch e enum cases m => do
      announce goal m
      let result ← goalOrNew goal m.span
      let (cls, payloads) ← enumClasses decls enum m.span
      let e ← elaborate decls env locals (some cls) e
      let cases ← elaborateNamed decls env locals (fun name span => do
        let payload ← resolved (payloads.get? name) .constructor (enum ++ "." ++ name) span
        alloc (.arrow [payload] result) span) cases
      counted ("cases in match on " ++ enum) payloads.size cases.length m.span
      return .switch e enum cases (← conclude goal result m)
  | .op o m => do
      announce goal m
      match o.signature with
      | some shapes =>
          let c ← modifyGet (Store.instantiate shapes m.span)
          return .op o (← settle goal c m)
      | none => fail (.unsupported o) m.span
  | .app f args m => do
      announce goal m
      let f ← elaborate decls env locals none f
      match ← shapeOf f.mark.cls with
      | .arrow params result =>
          counted "arguments" params.length args.length m.span
          let args ← elaborateEach decls env locals (params.map some) args
          return .app f args (← settle goal result m)
      | _ =>
          let args ← elaborateEach decls env locals [] args
          let result ← alloc .any m.span
          let c ← alloc (.arrow (args.map (·.mark.cls)) result) m.span
          unify f.mark.cls c m.span
          return .app f args (← settle goal result m)
  | .lam params tys body m => do
      announce goal m
      match goal, ← goalShape goal with
      | some g, .arrow wanted result =>
          counted "function parameters" wanted.length params.length m.span
          let cs ← binders params tys m.span
          unifyEach m.span (wanted.zip cs)
          let body ← elaborate decls env (locals.insertMany (params.zip cs)) (some result) body
          return .lam params tys body ⟨m.span, g⟩
      | _, _ =>
          let cs ← binders params tys m.span
          let body ← elaborate decls env (locals.insertMany (params.zip cs)) none body
          let c ← alloc (.arrow cs body.mark.cls) m.span
          return .lam params tys body (← settle goal c m)
  | .default exceptions just cons m => do
      announce goal m
      let cons ← elaborate decls env locals goal cons
      let c := cons.mark.cls
      let exceptions ← elaborateEach decls env locals (exceptions.map fun _ => some c) exceptions
      let bool ← alloc (.base .bool) just.mark.span
      let just ← elaborate decls env locals (some bool) just
      return .default exceptions just cons (← conclude goal c m)
  | .raise x m => do
      announce goal m
      let c ← goalOrNew goal m.span
      return .raise x (← conclude goal c m)
  | .rescue body x handler m => do
      announce goal m
      let body ← elaborate decls env locals goal body
      let handler ← elaborate decls env locals (some body.mark.cls) handler
      return .rescue body x handler (← conclude goal body.mark.cls m)
  | .force e m => do
      announce goal m
      let e ← elaborate decls env locals goal e
      return .force e (← conclude goal e.mark.cls m)
  | .array es m => do
      announce goal m
      let item ← alloc .any m.span
      match goal with
      | some g =>
          let c ← alloc (.array item) m.span
          unify g c m.span
          let es ← elaborateEach decls env locals (es.map fun _ => some item) es
          return .array es ⟨m.span, g⟩
      | none =>
          let es ← elaborateEach decls env locals (es.map fun _ => some item) es
          let c ← alloc (.array item) m.span
          return .array es (← conclude goal c m)
  | .ite cond yes no m => do
      announce goal m
      let bool ← alloc (.base .bool) cond.mark.span
      let cond ← elaborate decls env locals (some bool) cond
      let yes ← elaborate decls env locals goal yes
      let no ← elaborate decls env locals (some yes.mark.cls) no
      return .ite cond yes no (← conclude goal yes.mark.cls m)
  | .assert e m => do
      announce goal m
      let bool ← alloc (.base .bool) e.mark.span
      let e ← elaborate decls env locals (some bool) e
      let c ← alloc (.base .unit) m.span
      return .assert e (← settle goal c m)
  | .location l m => do
      announce goal m
      let t ← locationType env m.span l
      let c ← load t m.span
      return .location l (← settle goal c m)

/-- Elaborates a list of expressions, each with the goal in its place, if there is one. -/
def elaborateEach (decls : Decls) (env : Env) (locals : Locals) (goals : List (Option Class)) :
    List (Expr Mark) → TypeM (List (Expr Pending))
  | [] => pure []
  | e :: es => do
      let e ← elaborate decls env locals (goals.headD none) e
      let es ← elaborateEach decls env locals goals.tail es
      return e :: es

/-- Elaborates named expressions, each against the class that its name calls for. -/
def elaborateNamed (decls : Decls) (env : Env) (locals : Locals)
    (expected : String → Span → TypeM Class) :
    List (String × Expr Mark) → TypeM (List (String × Expr Pending))
  | [] => pure []
  | (name, e) :: es => do
      let c ← expected name e.mark.span
      let e ← elaborate decls env locals (some c) e
      let es ← elaborateNamed decls env locals expected es
      return (name, e) :: es

end

/-- Binders get the types that the function was found to take. -/
def binderTypes (m : Mark) (tys : List Ty) : List Ty :=
  match m.ty with
  | .arrow params _ => if params.length = tys.length then params else tys
  | _ => tys

/-- The tree with the types that its classes have in the end. -/
def Pending.finish (s : Store) (e : Expr Pending) : Expr Mark :=
  e.retype (fun p => ⟨p.span, s.resolve p.cls⟩) binderTypes

end Ordinance.Typing
