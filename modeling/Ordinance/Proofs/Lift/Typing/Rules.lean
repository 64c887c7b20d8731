import Ordinance.Proofs.Lift.Typing.Context
import Ordinance.Proofs.Lift.Typing.Forms

namespace Ordinance.Lift

open Typing

variable {decls : Decls} {env : Env} {A : Assumptions} {ctx : Ctx} {n : Nat} {m : Mark}
  {e : Expr Mark} {es : List (Expr Mark)} {t u r : Ty} {ts : List Ty}

/-- Wherever the expression is lifted with numbers from `n` upwards, the result is of the type
`option<t>`. -/
def LiftsTo (decls : Decls) (env : Env) (A : Assumptions) (ctx : Ctx) (n : Nat) (e : Expr Mark)
    (t : Ty) : Prop :=
  ∀ ⦃k⦄, n ≤ k → Lifts k (e.lift ctx) fun out _ => Typed decls env A out (.option t)

section Lists

variable {fields : List (String × Expr Mark)} {k : Nat}

theorem liftAll_typed (h : List.Forall₂ (LiftsTo decls env A ctx n) es ts) (le : n ≤ k) :
    Lifts k (Expr.liftAll ctx es) fun outs _ =>
      List.Forall₂ (fun out t => Typed decls env A out (.option t)) outs ts := by
  induction h generalizing k with
  | nil => exact .pure .nil
  | cons head _ ih =>
    refine .bind (head le) fun out m le' hout => ?_
    exact .bind (ih (Nat.le_trans le le')) fun outs _ _ houts => .pure (.cons hout houts)

theorem liftAll_typed_same (h : ∀ e ∈ es, LiftsTo decls env A ctx n e t) (le : n ≤ k) :
    Lifts k (Expr.liftAll ctx es) fun outs _ => ∀ out ∈ outs, Typed decls env A out (.option t) := by
  have same : List.Forall₂ (LiftsTo decls env A ctx n) es (es.map fun _ => t) :=
    List.forall₂_map_right_iff.mpr (List.forall₂_same.mpr h)
  refine .imp (liftAll_typed same le) fun outs _ _ houts out hout => ?_
  exact forall_of_forall₂_const (S := fun out t => Typed decls env A out (.option t)) houts out hout

theorem liftNamed_typed (h : List.Forall₂ (LiftsTo decls env A ctx n) (fields.map (·.2)) ts)
    (le : n ≤ k) :
    Lifts k (Expr.liftNamed ctx fields) fun outs _ => outs.map (·.1) = fields.map (·.1) ∧
      List.Forall₂ (fun out t => Typed decls env A out (.option t)) (outs.map (·.2)) ts := by
  induction fields generalizing k ts with
  | nil =>
    cases h
    exact .pure ⟨rfl, .nil⟩
  | cons x fields ih =>
    obtain ⟨t, ts, head, rest, rfl⟩ := List.forall₂_cons_left_iff.mp h
    refine .bind (head le) fun out m le' hout => ?_
    refine .bind (ih rest (Nat.le_trans le le')) fun outs _ _ houts => .pure ?_
    exact ⟨congrArg (x.1 :: ·) houts.1, .cons hout houts.2⟩

end Lists

namespace LiftsTo

variable {body handler cond yes no just cons f : Expr Mark} {exceptions args : List (Expr Mark)}
  {fields : List (String × Expr Mark)} {struct enum name ctor : String} {layout : Layout}

theorem weaken {B : Assumptions} (h : LiftsTo decls env A ctx n e t) (le : ∀ v u, A v u → B v u) :
    LiftsTo decls env B ctx n e t := fun _ hk => (h hk).imp fun _ _ _ hout => hout.mono le

/-- A computation that goes on with the lifted expression. -/
theorem bind {α : Type} {g : Expr Mark → LiftM α} {Q : α → Nat → Prop} {k : Nat}
    (he : LiftsTo decls env A ctx n e t) (le : n ≤ k)
    (hg : ∀ out k', n ≤ k' → Typed decls env A out (.option t) → Lifts k' (g out) Q) :
    Lifts k (e.lift ctx >>= g) Q :=
  .bind (he le) fun out k' le' hout => hg out k' (Nat.le_trans le le') hout

theorem lit (l : Literal) : LiftsTo decls env A ctx n (.lit l m) (.base l.ty) :=
  fun _ _ => .pure (.wrap (.lit l))

theorem raise (exn : Exn) : LiftsTo decls env A ctx n (.raise exn m) t := by
  intro k _
  cases exn with
  | empty => exact .pure .nothing
  | _ => exact .pure (.raise _)

theorem rescue {exn : Exn} (below : A.Below n) (hb : LiftsTo decls env A ctx n body t)
    (hh : LiftsTo decls env A ctx n handler t) :
    LiftsTo decls env A ctx n (.rescue body exn handler m) t := by
  intro k le
  cases exn with
  | empty =>
    refine hb.bind le fun b k le hb => hh.bind le fun h k le hh => ?_
    exact .supply (rescueEmpty_typed (below.mono le) hb hh)
  | _ =>
    refine hb.bind le fun b k le hb => hh.bind le fun h k le hh => .pure fun Γ holds => ?_
    exact .rescue (hb Γ holds) (hh Γ holds) (Ty.any_admits _)

theorem force (below : A.Below n) (he : LiftsTo decls env A ctx n e t) :
    LiftsTo decls env A ctx n (.force e m) t := fun _ le =>
  he.bind le fun _ _ le he => .supply (force_typed (below.mono le) he)

theorem default (below : A.Below n)
    (hexceptions : ∀ e ∈ exceptions, LiftsTo decls env A ctx n e t)
    (hjust : LiftsTo decls env A ctx n just .bool) (hcons : LiftsTo decls env A ctx n cons t) :
    LiftsTo decls env A ctx n (.default exceptions just cons m) t := by
  intro k le
  refine .bind (liftAll_typed_same hexceptions le) fun outs k' le' houts => ?_
  refine hjust.bind (Nat.le_trans le le') fun just k le hjust => hcons.bind le
    fun cons k le hcons => ?_
  exact .supply (default_typed (below.mono le) houts hjust hcons)

theorem ite (below : A.Below n) (hcond : LiftsTo decls env A ctx n cond .bool)
    (hyes : LiftsTo decls env A ctx n yes t) (hno : LiftsTo decls env A ctx n no t) :
    LiftsTo decls env A ctx n (.ite cond yes no m) t := by
  intro k le
  refine hcond.bind le fun cond k le hcond => hyes.bind le fun yes k le hyes => hno.bind le
    fun no k le hno => ?_
  exact .supply (ite_typed (below.mono le) hcond hyes hno)

theorem assert (below : A.Below n) (he : LiftsTo decls env A ctx n e .bool) :
    LiftsTo decls env A ctx n (.assert e m) .unit := fun _ le =>
  he.bind le fun _ _ le he => .supply (assert_typed (below.mono le) he)

theorem tuple (below : A.Below n) (h : List.Forall₂ (LiftsTo decls env A ctx n) es ts) :
    LiftsTo decls env A ctx n (.tuple es m) (.tuple ts) := fun _ le =>
  .bind (liftAll_typed h le) fun _ _ le' houts =>
    .supply (tuple_typed (below.mono (Nat.le_trans le le')) houts)

theorem array (below : A.Below n) (h : ∀ e ∈ es, LiftsTo decls env A ctx n e t) :
    LiftsTo decls env A ctx n (.array es m) (.array (.option t)) := fun _ le =>
  .bind (liftAll_typed_same h le) fun _ _ le' houts =>
    .supply (array_typed (below.mono (Nat.le_trans le le')) houts)

theorem component {index size : Nat} (below : A.Below n)
    (he : LiftsTo decls env A ctx n e (.tuple ts)) (length : ts.length = size)
    (found : ts[index]? = some t) : LiftsTo decls env A ctx n (.component e index size m) t :=
  fun _ le => he.bind le fun _ _ le he =>
    .supply (component_typed (below.mono le) he length found)

theorem record (below : A.Below n) (known : decls.structs.get? struct = some layout)
    (keys : fields.map (·.1) = layout.keys) (values : layout.values = ts.map .option)
    (h : List.Forall₂ (LiftsTo decls env A ctx n) (fields.map (·.2)) ts) :
    LiftsTo decls env A ctx n (.record struct fields m) (.struct struct) := fun _ le =>
  .bind (liftNamed_typed h le) fun _ _ le' houts => .supply (record_typed
    (below.mono (Nat.le_trans le le')) known (houts.1.trans keys) values houts.2)

theorem field (below : A.Below n) (known : decls.structs.get? struct = some layout)
    (found : layout.get? name = some (.option t))
    (he : LiftsTo decls env A ctx n e (.struct struct)) :
    LiftsTo decls env A ctx n (.field e struct name m) t := fun _ le =>
  he.bind le fun _ _ le he => .supply (field_typed (below.mono le) known found he)

theorem inject {names : List String} {payloads : List Ty} (below : A.Below n)
    (enumerates : Enumerates decls enum t names payloads) (mem : (ctor, u) ∈ names.zip payloads)
    (he : LiftsTo decls env A ctx n e u) : LiftsTo decls env A ctx n (.inject enum ctor e m) t :=
  fun _ le => he.bind le fun _ _ le he =>
    .supply (inject_typed (below.mono le) enumerates mem he)

section Operators

variable {o : Op} {k : Mark} {init xs : Expr Mark}

theorem call (below : A.Below n) (first : (o.isHigherOrder || o == .resolveDefault) = false)
    (takes : o.Takes ts r) (h : List.Forall₂ (LiftsTo decls env A ctx n) args ts) :
    LiftsTo decls env A ctx n (.app (.op o k) args m) r := by
  intro i le
  rw [lift_call first]
  refine .bind (liftAll_typed h le) fun outs i' le' houts => .supply ?_
  exact mapAll_typed (below.mono (Nat.le_trans le le')) (.op takes) houts

theorem map (below : A.Below n) (hf : LiftsTo decls env A ctx n f (.arrow [t] (.option r)))
    (hxs : LiftsTo decls env A ctx n xs (.array (.option t))) :
    LiftsTo decls env A ctx n (.app (.op .map k) [f, xs] m) (.array (.option r)) := by
  intro i le
  rw [lift_listCall rfl rfl]
  refine .bind (liftAll_typed (.cons hf (.cons hxs .nil)) le) fun outs i' le' houts => ?_
  match outs, houts with
  | [_, _], .cons hf (.cons hxs .nil) =>
    exact .supply (map_typed (below.mono (Nat.le_trans le le')) hf hxs)

theorem filter (below : A.Below n) (hf : LiftsTo decls env A ctx n f (.arrow [t] (.option .bool)))
    (hxs : LiftsTo decls env A ctx n xs (.array (.option t))) :
    LiftsTo decls env A ctx n (.app (.op .filter k) [f, xs] m) (.array (.option t)) := by
  intro i le
  rw [lift_listCall rfl rfl]
  refine .bind (liftAll_typed (.cons hf (.cons hxs .nil)) le) fun outs i' le' houts => ?_
  match outs, houts with
  | [_, _], .cons hf (.cons hxs .nil) =>
    exact .supply (filter_typed (below.mono (Nat.le_trans le le')) hf hxs)

/-- For `fold` and `reduce`. -/
theorem foldWith (below : A.Below n) (ho : o = .fold ∨ o = .reduce ∧ r = t)
    (hf : LiftsTo decls env A ctx n f (.arrow [r, t] (.option r)))
    (hinit : LiftsTo decls env A ctx n init r)
    (hxs : LiftsTo decls env A ctx n xs (.array (.option t))) :
    LiftsTo decls env A ctx n (.app (.op o k) [f, init, xs] m) r := by
  intro i le
  rcases ho with rfl | ⟨rfl, rfl⟩
  all_goals
    rw [lift_listCall rfl rfl]
    refine .bind (liftAll_typed (.cons hf (.cons hinit (.cons hxs .nil))) le)
      fun outs i' le' houts => ?_
    match outs, houts with
    | [_, _, _], .cons hf (.cons hinit (.cons hxs .nil)) =>
      exact .supply (foldWith_typed (below.mono (Nat.le_trans le le')) (by constructor)
        hf hinit hxs)

theorem operator (below : A.Below n)
    (takes : (o.isHigherOrder || o == .resolveDefault) = false → o.Takes ts r) :
    LiftsTo decls env A ctx n (.op o m) (.arrow ts (.option r)) := by
  intro i le
  change Lifts i (if o.isHigherOrder || o == .resolveDefault then fail _ _ else _) _
  split
  next => exact .fail
  next first =>
    exact .supply (operator_typed (below.mono le) (takes (Bool.eq_false_iff.mpr first)))

end Operators

end LiftsTo

end Ordinance.Lift
