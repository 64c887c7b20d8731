import Ordinance.Expr.Basic

namespace Ordinance.Expr

variable {μ ν : Type}

mutual

/-- Combines every node with what its parts gave. -/
def fold {α : Type} (f : Expr μ → List α → α) : Expr μ → α
  | e@(var ..) | e@(lit ..) | e@(op ..) | e@(raise ..) | e@(location ..) => f e []
  | e@(tuple es _) | e@(array es _) => f e (foldAll f es)
  | e@(component d _ _ _) | e@(field d _ _ _) | e@(inject _ _ d _) | e@(force d _)
  | e@(assert d _) | e@(lam _ _ d _) => f e [fold f d]
  | e@(record _ fs _) => f e (foldNamed f fs)
  | e@(switch d _ cs _) => f e (fold f d :: foldNamed f cs)
  | e@(app g es _) => f e (fold f g :: foldAll f es)
  | e@(default es j c _) => f e (foldAll f es ++ [fold f j, fold f c])
  | e@(rescue b _ h _) => f e [fold f b, fold f h]
  | e@(ite c a b _) => f e [fold f c, fold f a, fold f b]

def foldAll {α : Type} (f : Expr μ → List α → α) : List (Expr μ) → List α
  | [] => []
  | e :: es => fold f e :: foldAll f es

def foldNamed {α : Type} (f : Expr μ → List α → α) : List (String × Expr μ) → List α
  | [] => []
  | (_, e) :: es => fold f e :: foldNamed f es

end

theorem foldAll_eq_map {α : Type} (f : Expr μ → List α → α) (es : List (Expr μ)) :
    foldAll f es = es.map (fold f) := by
  induction es with
  | nil => rfl
  | cons e es ih => simp [foldAll, ih]

theorem foldNamed_eq_map {α : Type} (f : Expr μ → List α → α) (es : List (String × Expr μ)) :
    foldNamed f es = (es.map (·.2)).map (fold f) := by
  induction es with
  | nil => rfl
  | cons e es ih => simp [foldNamed, ih]

theorem fold_eq {α : Type} (f : Expr μ → List α → α) (e : Expr μ) :
    e.fold f = f e (e.children.map (fold f)) := by
  cases e <;> simp [fold, children, foldAll_eq_map, foldNamed_eq_map]

/-- The number of nodes. -/
def size (e : Expr μ) : Nat := e.fold fun _ sizes => sizes.foldr (· + ·) 1

/-- The nodes from the root down, each with its depth. -/
def nodes (e : Expr μ) : List (Nat × Head × μ) :=
  e.fold (fun e below depth => (depth, e.head, e.mark) :: below.flatMap (· (depth + 1))) 0

mutual

/-- Replaces every mark. A node is visited after all its parts, and the parts in order. -/
def mapMarksM {m : Type → Type} [Monad m] (f : μ → m ν) : Expr μ → m (Expr ν)
  | var v k => do return var v (← f k)
  | lit l k => do return lit l (← f k)
  | tuple es k => do
      let es ← mapMarksAllM f es
      return tuple es (← f k)
  | component e i n k => do
      let e ← mapMarksM f e
      return component e i n (← f k)
  | record s fs k => do
      let fs ← mapMarksNamedM f fs
      return record s fs (← f k)
  | field e s n k => do
      let e ← mapMarksM f e
      return field e s n (← f k)
  | inject n c e k => do
      let e ← mapMarksM f e
      return inject n c e (← f k)
  | switch e n cs k => do
      let e ← mapMarksM f e
      let cs ← mapMarksNamedM f cs
      return switch e n cs (← f k)
  | op o k => do return op o (← f k)
  | app g es k => do
      let g ← mapMarksM f g
      let es ← mapMarksAllM f es
      return app g es (← f k)
  | lam ps ts b k => do
      let b ← mapMarksM f b
      return lam ps ts b (← f k)
  | default es j c k => do
      let es ← mapMarksAllM f es
      let j ← mapMarksM f j
      let c ← mapMarksM f c
      return default es j c (← f k)
  | raise x k => do return raise x (← f k)
  | rescue b x h k => do
      let b ← mapMarksM f b
      let h ← mapMarksM f h
      return rescue b x h (← f k)
  | force e k => do
      let e ← mapMarksM f e
      return force e (← f k)
  | array es k => do
      let es ← mapMarksAllM f es
      return array es (← f k)
  | ite c a b k => do
      let c ← mapMarksM f c
      let a ← mapMarksM f a
      let b ← mapMarksM f b
      return ite c a b (← f k)
  | assert e k => do
      let e ← mapMarksM f e
      return assert e (← f k)
  | location l k => do return location l (← f k)

def mapMarksAllM {m : Type → Type} [Monad m] (f : μ → m ν) : List (Expr μ) → m (List (Expr ν))
  | [] => pure []
  | e :: es => do
      let e ← mapMarksM f e
      let es ← mapMarksAllM f es
      return e :: es

def mapMarksNamedM {m : Type → Type} [Monad m] (f : μ → m ν) :
    List (String × Expr μ) → m (List (String × Expr ν))
  | [] => pure []
  | (n, e) :: es => do
      let e ← mapMarksM f e
      let es ← mapMarksNamedM f es
      return (n, e) :: es

end

mutual

/-- Replaces every mark by `f`, and the binder types of every function by `g` of its new mark. -/
def retype (f : μ → ν) (g : ν → List Ty → List Ty) : Expr μ → Expr ν
  | var v k => var v (f k)
  | lit l k => lit l (f k)
  | tuple es k => tuple (retypeAll f g es) (f k)
  | component e i n k => component (retype f g e) i n (f k)
  | record s fs k => record s (retypeNamed f g fs) (f k)
  | field e s n k => field (retype f g e) s n (f k)
  | inject n c e k => inject n c (retype f g e) (f k)
  | switch e n cs k => switch (retype f g e) n (retypeNamed f g cs) (f k)
  | op o k => op o (f k)
  | app h es k => app (retype f g h) (retypeAll f g es) (f k)
  | lam ps ts b k => lam ps (g (f k) ts) (retype f g b) (f k)
  | default es j c k => default (retypeAll f g es) (retype f g j) (retype f g c) (f k)
  | raise x k => raise x (f k)
  | rescue b x h k => rescue (retype f g b) x (retype f g h) (f k)
  | force e k => force (retype f g e) (f k)
  | array es k => array (retypeAll f g es) (f k)
  | ite c a b k => ite (retype f g c) (retype f g a) (retype f g b) (f k)
  | assert e k => assert (retype f g e) (f k)
  | location l k => location l (f k)

def retypeAll (f : μ → ν) (g : ν → List Ty → List Ty) : List (Expr μ) → List (Expr ν)
  | [] => []
  | e :: es => retype f g e :: retypeAll f g es

def retypeNamed (f : μ → ν) (g : ν → List Ty → List Ty) :
    List (String × Expr μ) → List (String × Expr ν)
  | [] => []
  | (n, e) :: es => (n, retype f g e) :: retypeNamed f g es

end

/-- The node with other parts in place of its own, one for one. -/
def replaceChildren : Expr μ → List (Expr μ) → Expr μ
  | tuple _ m, ds => tuple ds m
  | array _ m, ds => array ds m
  | component _ i n m, [d] => component d i n m
  | field _ s f m, [d] => field d s f m
  | inject n c _ m, [d] => inject n c d m
  | force _ m, [d] => force d m
  | assert _ m, [d] => assert d m
  | lam ps ts _ m, [d] => lam ps ts d m
  | record s fs m, ds => record s ((fs.map (·.1)).zip ds) m
  | switch _ n cs m, d :: ds => switch d n ((cs.map (·.1)).zip ds) m
  | app _ _ m, d :: ds => app d ds m
  | e@(default es _ _ m), ds =>
      match ds.drop es.length with
      | [j, c] => default (ds.take es.length) j c m
      | _ => e
  | rescue _ x _ m, [b, h] => rescue b x h m
  | ite _ _ _ m, [c, a, b] => ite c a b m
  | e, _ => e

end Ordinance.Expr
