import Ordinance.Proofs.Lift.Hygiene.Expr
import Ordinance.Proofs.Lift.Typing.Context
import Ordinance.Proofs.Op.Signature
import Ordinance.Proofs.Typing.Free
import Ordinance.Proofs.Typing.Soundness.Check

namespace Ordinance

namespace Expr

variable {μ : Type}

/-- A function of the unit value, which is lifted to its body. -/
def delays : Expr μ → Bool
  | lam [_] (.base .unit :: _) _ _ => true
  | _ => false

def isLam : Expr μ → Bool
  | lam .. => true
  | _ => false

/-- Neither the node nor a part of it binds variables. -/
def bindsNothing : Expr μ → Bool
  | lam .. | switch .. => false
  | _ => true

/-- What lifting a node looks up, from what lifting its parts does. The parameter of a delayed value is
not bound, except in a case. -/
def lookupsOf : Expr μ → List (List Var) → List Var
  | switch _ _ cases _, head :: rest =>
      head ++ (cases.zip rest).flatMap fun x => x.2.filter (· ∉ x.1.2.params)
  | e, below => e.named ++ below.flatten.filter fun v => v ∉ e.params ∨ e.delays

/-- The variables that lifting looks up. -/
def lookups (e : Expr μ) : List Var := e.fold lookupsOf

/-- The operators that work on functions are called where they stand, defaults are not resolved yet,
there are no locations left, and cases are functions. -/
def liftableNode : Expr Mark → Bool
  | location .. => false
  | op o _ => !(o.isHigherOrder || o == .resolveDefault)
  | app (op o _) _ _ => !(o == .resolveDefault)
  | switch _ _ cases _ => cases.all (·.2.isLam)
  | _ => true

/-- The same of all nodes except for the operators that are called. -/
def liftable (e : Expr Mark) : Bool :=
  e.fold fun e below => e.liftableNode &&
    match e with
    | app (op ..) _ _ => below.tail.all id
    | _ => below.all id

theorem liftable_iff {e : Expr Mark} :
    e.liftable = true ↔ e.liftableNode = true ∧ ∀ d ∈ e.valueParts, d.liftable = true := by
  rw [liftable, fold_eq, Bool.and_eq_true]
  refine and_congr_right fun _ => ?_
  unfold valueParts
  split <;> simp [children, liftable, List.all_map]

theorem lookups_eq (e : Expr μ) : e.lookups = e.lookupsOf (e.children.map lookups) := fold_eq _ e

theorem mem_lookups_switch {e : Expr μ} {enum : String} {cases : List (String × Expr μ)} {m : μ}
    {v : Var} : v ∈ (switch e enum cases m).lookups ↔
      v ∈ e.lookups ∨ ∃ c ∈ cases, v ∈ c.2.lookups ∧ v ∉ c.2.params := by
  have zipped : cases.zip ((cases.map (·.2)).map lookups) = cases.map fun c => (c, c.2.lookups) := by
    induction cases with
    | nil => rfl
    | cons c cases ih => exact congrArg ((c, c.2.lookups) :: ·) ih
  rw [lookups_eq, children, List.map_cons, lookupsOf, zipped]
  simp [List.mem_flatMap]

theorem mem_lookups_lam {params : List Var} {tys : List Ty} {body : Expr μ} {m : μ} {v : Var} :
    v ∈ (lam params tys body m).lookups ↔
      v ∈ body.lookups ∧ (v ∉ params ∨ (lam params tys body m).delays = true) := by
  have eq : (lam params tys body m).lookups = [body.lookups].flatten.filter fun v =>
      v ∉ params ∨ (lam params tys body m).delays = true := by
    rw [lookups_eq]
    rfl
  rw [eq, List.mem_filter, decide_eq_true_iff, List.flatten_singleton]

/-- What any other node looks up is what its parts do. -/
theorem mem_lookups_iff {e : Expr μ} {v : Var} (h : e.bindsNothing = true) :
    v ∈ e.lookups ↔ v ∈ e.named ∨ ∃ d ∈ e.children, v ∈ d.lookups := by
  have params : e.params = [] := by
    cases e with
    | lam => cases h
    | _ => rfl
  rw [lookups_eq, lookupsOf, params, List.mem_append, List.mem_filter]
  · simp
  · rintro d enum cases m _ _ rfl
    cases h

end Expr

namespace Lift

open Typing

/-- The computation ends without an error. -/
def Succeeds {α : Type} (n : Nat) (x : LiftM α) : Prop := ∃ a m, x n = (.ok a, m)

section Runs

variable {α β : Type} {n : Nat} {x : LiftM α} {f : α → LiftM β} {A B : Prop}

theorem Succeeds.pure (a : α) : Succeeds n (pure a : LiftM α) := ⟨a, n, rfl⟩

theorem Succeeds.supply (c : Supply α) : Succeeds n (liftM c : LiftM α) := ⟨(c n).1, (c n).2, rfl⟩

theorem not_succeeds_of_error {err : Error} {m : Nat} (h : x n = (.error err, m)) :
    ¬ Succeeds n x := by
  rintro ⟨_, _, run⟩
  rw [h] at run
  cases run

theorem succeeds_bind_iff :
    Succeeds n (x >>= f) ↔ ∃ a m, x n = (.ok a, m) ∧ Succeeds m (f a) := by
  have step : (x >>= f) n = ExceptT.bindCont f (x n).1 (x n).2 := rfl
  rcases first : x n with ⟨r, m⟩
  rw [Succeeds, step, first]
  cases r with
  | error err => exact ⟨nofun, nofun⟩
  | ok a =>
    constructor
    · exact fun ends => ⟨a, m, rfl, ends⟩
    · rintro ⟨a', m', eq, ends⟩
      cases eq
      exact ends

theorem succeeds_bind (hx : Succeeds n x ↔ A)
    (hf : ∀ a m, x n = (.ok a, m) → (Succeeds m (f a) ↔ B)) : Succeeds n (x >>= f) ↔ A ∧ B := by
  rw [succeeds_bind_iff, ← hx]
  constructor
  · rintro ⟨a, m, run, ends⟩
    exact ⟨⟨a, m, run⟩, (hf a m run).mp ends⟩
  · rintro ⟨⟨a, m, run⟩, hb⟩
    exact ⟨a, m, run, (hf a m run).mpr hb⟩

/-- What comes last cannot fail. -/
theorem succeeds_last (hx : Succeeds n x ↔ A)
    (hf : ∀ a m, x n = (.ok a, m) → Succeeds m (f a)) : Succeeds n (x >>= f) ↔ A := by
  have both := succeeds_bind hx fun a m run => iff_true_intro (hf a m run)
  rwa [and_true] at both

end Runs

section Contexts

variable {ctx : Ctx} {n : Nat} {env : Env} {Γ Δ : Dict Var Ty}

/-- The variable stands for a value. -/
def Ctx.Resolves (ctx : Ctx) (v : Var) : Prop := ∃ b, ctx.get? v = some b ∧ b.mode ≠ .scope

/-- Lifting finds what it looks up. -/
def Ctx.Knows (ctx : Ctx) (e : Expr Mark) : Prop := ∀ v ∈ e.lookups, ctx.Resolves v

/-- No variable of a function type stands for a scope. -/
def Ctx.Plain (env : Env) (Γ : Dict Var Ty) (ctx : Ctx) : Prop :=
  ∀ v b ts t, ctx.get? v = some b → VarTy env Γ v (.arrow ts t) → b.mode ≠ .scope

theorem Ctx.Plain.of_get? (h : ctx.Plain env Γ) (same : ∀ v, Δ.get? v = Γ.get? v) :
    ctx.Plain env Δ := by
  intro v b ts t bound hv
  rw [VarTy, same] at hv
  exact h v b ts t bound hv

/-- The second context is the first with values for the variables. -/
structure Ctx.Opens (ctx : Ctx) (vs : List Var) (inner : Ctx) : Prop where
  bound : ∀ v ∈ vs, ∃ b, inner.get? v = some b ∧ b.mode = .payload
  others : ∀ v, v ∉ vs → inner.get? v = ctx.get? v

theorem bindParams_opens (vs : List Var) :
    Draws n (ctx.bindParams vs) fun r _ => ctx.Opens vs r.1 := by
  induction vs generalizing ctx n with
  | nil => exact .pure ⟨nofun, fun _ _ => rfl⟩
  | cons w vs ih =>
    have first : Draws n (ctx.bind w .payload) fun r _ => r.1 = ctx.insert w ⟨r.2, .payload⟩ :=
      .bind (.fresh w.name) fun _ _ _ _ => .pure rfl
    refine .bind first fun r k _ hr => .bind ih fun r' m _ hr' => .pure ?_
    refine ⟨fun v hv => ?_, fun v hv => ?_⟩
    · by_cases later : v ∈ vs
      · exact hr'.bound v later
      · obtain rfl := (List.mem_cons.mp hv).resolve_right later
        exact ⟨⟨r.2, .payload⟩, by simp [hr'.others v later, hr], rfl⟩
    · obtain ⟨ne, later⟩ := not_or.mp (mt List.mem_cons.mpr hv)
      simp [hr'.others v later, hr, ne]

theorem Ctx.Opens.knows_iff {inner : Ctx} {vs : List Var} {e : Expr Mark} (h : ctx.Opens vs inner) :
    inner.Knows e ↔ ∀ v ∈ e.lookups, v ∉ vs → ctx.Resolves v := by
  constructor
  · intro knows v hv new
    obtain ⟨b, bound, mode⟩ := knows v hv
    exact ⟨b, h.others v new ▸ bound, mode⟩
  · intro knows v hv
    by_cases here : v ∈ vs
    · obtain ⟨b, bound, mode⟩ := h.bound v here
      exact ⟨b, bound, by simp [mode]⟩
    · obtain ⟨b, bound, mode⟩ := knows v hv here
      exact ⟨b, (h.others v here).trans bound, mode⟩

theorem Ctx.Opens.plain {inner : Ctx} {vs : List Var} {ts : List Ty} (h : ctx.Opens vs inner)
    (plain : ctx.Plain env Γ) (length : vs.length = ts.length) :
    inner.Plain env (Γ.insertMany (vs.zip ts)) := by
  intro v b us u bound hv
  by_cases here : v ∈ vs
  · obtain ⟨b', bound', mode⟩ := h.bound v here
    obtain rfl : b' = b := by simpa [bound'] using bound
    simp [mode]
  · have names : (vs.zip ts).map (·.1) = vs := List.map_fst_zip (Nat.le_of_eq length)
    rw [VarTy, Dict.get?_insertMany_of_notMem (by rwa [names])] at hv
    exact plain v b us u ((h.others v here).symm.trans bound) hv

end Contexts

section Parts

variable {ctx : Ctx} {n : Nat} {e : Expr Mark} {es : List (Expr Mark)}

/-- Whether lifting succeeds is decided by what it looks up. -/
def Decided (ctx : Ctx) (e : Expr Mark) : Prop := ∀ n, Succeeds n (e.lift ctx) ↔ ctx.Knows e

theorem liftAll_succeeds (h : ∀ e ∈ es, Decided ctx e) :
    Succeeds n (Expr.liftAll ctx es) ↔ ∀ e ∈ es, ctx.Knows e := by
  induction es generalizing n with
  | nil => exact iff_of_true (.pure []) nofun
  | cons e es ih =>
    obtain ⟨head, rest⟩ := List.forall_mem_cons.mp h
    rw [List.forall_mem_cons]
    exact succeeds_bind (head n) fun _ _ _ => succeeds_last (ih rest) fun _ _ _ => .pure _

theorem liftNamed_succeeds {fields : List (String × Expr Mark)}
    (h : ∀ e ∈ fields.map (·.2), Decided ctx e) :
    Succeeds n (Expr.liftNamed ctx fields) ↔ ∀ e ∈ fields.map (·.2), ctx.Knows e := by
  induction fields generalizing n with
  | nil => exact iff_of_true (.pure []) nofun
  | cons f fields ih =>
    obtain ⟨head, rest⟩ := List.forall_mem_cons.mp h
    rw [List.map_cons, List.forall_mem_cons]
    exact succeeds_bind (head n) fun _ _ _ => succeeds_last (ih rest) fun _ _ _ => .pure _

theorem liftAll_length (es : List (Expr Mark)) :
    Lifts n (Expr.liftAll ctx es) fun outs _ => outs.length = es.length := by
  induction es generalizing n with
  | nil => exact .pure rfl
  | cons e es ih =>
    refine .bind (lift_draws e) fun _ _ _ _ => ?_
    exact .bind ih fun outs _ _ length => .pure (congrArg (· + 1) length)

theorem listCall_succeeds {o : Op} {span : Span} (higher : o.isHigherOrder = true)
    (length : es.length = o.arity) : Succeeds n (listCall o es span) := by
  cases o with
  | map | filter =>
    obtain ⟨f, xs, rfl⟩ := List.length_eq_two.mp length
    exact .supply _
  | fold | reduce =>
    obtain ⟨f, init, xs, rfl⟩ := List.length_eq_three.mp length
    exact .supply _
  | _ => cases higher

/-- The body of a function, and what comes after it. -/
theorem body_succeeds {α : Type} {g : List Var → Expr Mark → LiftM α} {B : Prop} {body : Expr Mark}
    (vs : List Var) (h : ∀ inner, ctx.Opens vs inner → Decided inner body)
    (hg : ∀ xs out m, Succeeds m (g xs out) ↔ B) :
    Succeeds n (liftM (ctx.bindParams vs) >>= fun r => body.lift r.1 >>= g r.2) ↔
      (∀ v ∈ body.lookups, v ∉ vs → ctx.Resolves v) ∧ B := by
  have opens : ctx.Opens vs (ctx.bindParams vs n).1.1 := (bindParams_opens vs).2
  have rest := succeeds_bind ((h _ opens (ctx.bindParams vs n).2).trans opens.knows_iff)
    fun out m _ => hg (ctx.bindParams vs n).1.2 out m
  rw [← rest, succeeds_bind_iff]
  constructor
  · rintro ⟨r, m, run, ends⟩
    cases run
    exact ends
  · exact fun ends => ⟨_, _, rfl, ends⟩

theorem liftCases_succeeds {cases : List (String × Expr Mark)}
    (h : ∀ c ∈ cases.map (·.2), ∃ v tys body m, c = .lam [v] tys body m ∧
      ∀ inner, ctx.Opens [v] inner → Decided inner body) :
    Succeeds n (Expr.liftCases ctx cases) ↔
      ∀ c ∈ cases, ∀ v ∈ c.2.lookups, v ∉ c.2.params → ctx.Resolves v := by
  induction cases generalizing n with
  | nil => exact iff_of_true (.pure []) nofun
  | cons x cases ih =>
    obtain ⟨here, rest⟩ := List.forall_mem_cons.mp h
    obtain ⟨name, c⟩ := x
    obtain ⟨v, tys, body, m, rfl, decided⟩ := here
    rw [List.forall_mem_cons]
    have head : (∀ w ∈ (Expr.lam [v] tys body m).lookups, w ∉ [v] → ctx.Resolves w) ↔
        ∀ w ∈ body.lookups, w ∉ [v] → ctx.Resolves w := by
      simp only [Expr.mem_lookups_lam]
      exact ⟨fun all w hw new => all w ⟨hw, .inl new⟩ new, fun all w hw new => all w hw.1 new⟩
    refine Iff.trans ?_ (and_congr_left' head.symm)
    exact body_succeeds [v] (g := fun xs body => Expr.liftCases ctx cases >>= fun es =>
      pure ((name, lambda xs (Ty.liftAll tys) body m.span) :: es)) decided
      fun _ _ _ => succeeds_last (ih rest) fun _ _ _ => .pure _

end Parts

section Nodes

variable {ctx : Ctx} {e : Expr Mark}

theorem knows_iff (h : e.bindsNothing = true) (named : e.named = []) :
    ctx.Knows e ↔ ∀ d ∈ e.children, ctx.Knows d := by
  simp only [Ctx.Knows, Expr.mem_lookups_iff h, named, List.not_mem_nil, false_or]
  exact ⟨fun all d hd v hv => all v ⟨d, hd, hv⟩, fun all v ⟨d, hd, hv⟩ => all d hd v hv⟩

theorem var_decided (v : Var) (m : Mark) : Decided ctx (.var v m) := by
  intro n
  have lookups : (Expr.var v m).lookups = [v] := rfl
  have knows : ctx.Knows (.var v m) ↔ ctx.Resolves v := by simp [Ctx.Knows, lookups]
  rw [knows, Expr.lift, Ctx.lookup]
  cases found : ctx.get? v with
  | none =>
    apply iff_of_false (not_succeeds_of_error rfl)
    rintro ⟨b, bound, _⟩
    simp [found] at bound
  | some b =>
    obtain ⟨target, mode⟩ := b
    cases mode with
    | payload => exact iff_of_true ⟨_, _, rfl⟩ ⟨_, found, by simp⟩
    | option => exact iff_of_true ⟨_, _, rfl⟩ ⟨_, found, by simp⟩
    | scope =>
      apply iff_of_false (not_succeeds_of_error rfl)
      rintro ⟨b, bound, mode⟩
      cases found.symm.trans bound
      exact mode rfl

variable {decls : Decls} {env : Env} {Γ : Dict Var Ty} {t : Ty}

/-- What an expression of a type looks up decides whether it is lifted. -/
def TypedDecided (decls : Decls) (env : Env) (e : Expr Mark) : Prop :=
  ∀ ⦃ctx : Ctx⦄ ⦃Γ t⦄, HasTy Eq decls env Γ e t → e.liftable = true → ctx.Plain env Γ → Decided ctx e

theorem lam_decided {params : List Var} {tys : List Ty} {body : Expr Mark} {m : Mark}
    (typed : HasTy Eq decls env Γ (.lam params tys body m) t)
    (liftable : (Expr.lam params tys body m).liftable = true) (plain : ctx.Plain env Γ)
    (h : TypedDecided decls env body) : Decided ctx (.lam params tys body m) := by
  intro n
  replace liftable : body.liftable = true := (Expr.liftable_iff.mp liftable).2 body List.mem_cons_self
  cases typed with
  | @lam _ _ _ _ _ ts _ count binders typed =>
    obtain rfl := List.forall₂_eq_eq_eq ▸ binders
    by_cases delays : ∃ v rest, params = [v] ∧ tys = .unit :: rest
    · obtain ⟨v, rest, rfl, rfl⟩ := delays
      obtain rfl : rest = [] := by simpa using count
      have inside : ctx.Plain env (Γ.insert v .unit) := by
        intro w b us u bound hw
        by_cases here : w = v
        · simp [VarTy, here] at hw
        · exact plain w b us u bound (by simpa [VarTy, here] using hw)
      have knows : ctx.Knows (.lam [v] [.unit] body m) ↔ ctx.Knows body := by
        simp [Ctx.Knows, Expr.mem_lookups_lam, Expr.delays]
      rw [knows]
      exact h typed liftable inside n
    · have kept : ¬ (Expr.lam params tys body m).delays = true := by
        unfold Expr.delays
        split
        next eq =>
          cases eq
          exact absurd ⟨_, _, rfl, rfl⟩ delays
        next => simp
      rw [lift_lam fun v rest both => delays ⟨v, rest, both⟩]
      have knows : ctx.Knows (.lam params tys body m) ↔
          (∀ v ∈ body.lookups, v ∉ params → ctx.Resolves v) ∧ True := by
        simp [Ctx.Knows, Expr.mem_lookups_lam, kept]
      rw [knows]
      exact body_succeeds params (g := fun xs body => pure (wrap (lambda xs (Ty.liftAll tys) body _) _))
        (fun inner opens => h typed liftable (opens.plain plain count))
        fun _ _ _ => iff_true_intro (.pure _)

theorem calledScope_eq_none {f : Expr Mark} (h : ∀ v k, f = .var v k → ctx.Resolves v) :
    ctx.calledScope f = pure none := by
  cases f with
  | var v k =>
    obtain ⟨b, bound, mode⟩ := h v k rfl
    simp [Ctx.calledScope, Ctx.lookup, bound, mode]
  | _ => rfl

theorem calledScope_of_unbound {v : Var} (k : Mark) (h : ctx.get? v = none) :
    ctx.calledScope (.var v k) = fail (.unbound v.render) k.span := by
  simp [Ctx.calledScope, Ctx.lookup, h]
  rfl

theorem app_decided {f : Expr Mark} {args : List (Expr Mark)} {m : Mark}
    (typed : HasTy Eq decls env Γ (.app f args m) t)
    (liftable : (Expr.app f args m).liftable = true) (plain : ctx.Plain env Γ)
    (part : ∀ d ∈ (Expr.app f args m).valueParts, Decided ctx d) : Decided ctx (.app f args m) := by
  intro n
  rw [knows_iff rfl rfl, Expr.children, List.forall_mem_cons]
  by_cases isOp : ∃ o i, f = .op o i
  · obtain ⟨o, i, rfl⟩ := isOp
    have knowsOp : ctx.Knows (.op o i) := List.forall_mem_nil _
    have notHandler : ¬ o = .resolveDefault := by
      simpa [Expr.liftableNode] using (Expr.liftable_iff.mp liftable).1
    rw [and_iff_right knowsOp]
    by_cases higher : o.isHigherOrder = true
    · have length : args.length = o.arity := by
        cases typed with
        | app typedf length _ _ =>
          cases typedf with
          | op hop _ =>
            obtain ⟨ts, r, eq, takes⟩ := hop.takes
            cases eq
            rw [length, takes.length_eq]
      rw [lift_listCall higher length]
      refine succeeds_last (liftAll_succeeds part) fun outs k run => ?_
      exact listCall_succeeds higher ((liftAll_length args outs k run).2.trans length)
    · rw [lift_call (by simp [higher, notHandler])]
      exact succeeds_last (liftAll_succeeds part) fun _ _ _ => .supply _
  · have notOp (o : Op) (i : Mark) : f ≠ .op o i := fun eq => isOp ⟨o, i, eq⟩
    rw [Expr.valueParts_app notOp] at part
    obtain ⟨hf, hargs⟩ := List.forall_mem_cons.mp part
    rw [lift_app notOp]
    by_cases resolves : ∀ v k, f = .var v k → ctx.Resolves v
    · rw [calledScope_eq_none resolves, pure_bind]
      dsimp only
      split
      next forced =>
        obtain ⟨k, rfl⟩ := eq_of_forces forced
        have knowsUnit : ∀ d ∈ [Expr.lit .unit k], ctx.Knows d :=
          List.forall_mem_singleton.mpr (List.forall_mem_nil _)
        rw [and_iff_left knowsUnit]
        exact hf n
      next =>
        exact succeeds_bind (hf n) fun _ _ _ =>
          succeeds_last (liftAll_succeeds hargs) fun _ _ _ => .supply _
    · push Not at resolves
      obtain ⟨v, k, rfl, unresolved⟩ := resolves
      have unbound : ctx.get? v = none := by
        cases found : ctx.get? v with
        | none => rfl
        | some b =>
          cases typed with
          | app typedf _ _ _ =>
            cases typedf with
            | var hv _ => exact absurd ⟨b, found, plain v b _ _ found hv⟩ unresolved
      rw [calledScope_of_unbound k unbound]
      apply iff_of_false (not_succeeds_of_error rfl)
      exact fun knows => unresolved (knows.1 v List.mem_cons_self)

/-- The cases of a match, which are functions of one variable by their types. -/
theorem switch_decided {enum : String} {cases : List (String × Expr Mark)} {m : Mark}
    (typed : HasTy Eq decls env Γ (.switch e enum cases m) t)
    (liftable : (Expr.switch e enum cases m).liftable = true) (plain : ctx.Plain env Γ)
    (he : Decided ctx e)
    (below : ∀ c ∈ cases.map (·.2), ∀ d ∈ c.children, TypedDecided decls env d) :
    Decided ctx (.switch e enum cases m) := by
  intro n
  obtain ⟨areLams, parts⟩ := Expr.liftable_iff.mp liftable
  obtain ⟨_, casesLiftable⟩ := List.forall_mem_cons.mp parts
  have knows : ctx.Knows (.switch e enum cases m) ↔ ctx.Knows e ∧
      ∀ c ∈ cases, ∀ v ∈ c.2.lookups, v ∉ c.2.params → ctx.Resolves v := by
    simp only [Ctx.Knows, Expr.mem_lookups_switch]
    constructor
    · exact fun all => ⟨fun v hv => all v (.inl hv), fun c hc v hv new => all v (.inr ⟨c, hc, hv, new⟩)⟩
    · rintro ⟨first, rest⟩ v (hv | ⟨c, hc, hv, new⟩)
      · exact first v hv
      · exact rest c hc v hv new
  rw [knows]
  refine succeeds_bind (he n) fun _ k _ => succeeds_last (liftCases_succeeds ?_) fun _ _ _ => .supply _
  intro c hc
  cases typed with
  | switch enumerates _ typedCases _ =>
    obtain ⟨u, hu⟩ := exists_mem_zip (by simpa using enumerates.length_eq) hc
    have isLam : c.isLam = true := by
      obtain ⟨x, hx, rfl⟩ := List.mem_map.mp hc
      exact List.all_eq_true.mp areLams x hx
    have typedCase : HasTy Eq decls env Γ c (.arrow [u] t) := typedCases _ hu
    cases c with
    | lam params tys body mark =>
      have body := below _ hc body List.mem_cons_self
      have bodyLiftable := (Expr.liftable_iff.mp (casesLiftable _ hc)).2 _ List.mem_cons_self
      cases typedCase with
      | lam count binders typedBody _ =>
        obtain rfl := List.forall₂_eq_eq_eq ▸ binders
        obtain ⟨v, rfl⟩ := List.length_eq_one_iff.mp count
        exact ⟨v, [u], _, mark, rfl, fun inner opens =>
          body typedBody bodyLiftable (opens.plain plain count)⟩
    | _ => cases isLam

end Nodes

/-- What a typed expression looks up decides whether it is lifted: by induction on the expression,
for all contexts, since a function opens its own. -/
theorem lift_decided {decls : Decls} {env : Env} (e : Expr Mark) : TypedDecided decls env e := by
  induction e using Expr.inductTwo with
  | node e ih below =>
    intro ctx Γ t typed liftable plain
    obtain ⟨node, parts⟩ := Expr.liftable_iff.mp liftable
    have part (none : e.params = []) : ∀ d ∈ e.valueParts, Decided ctx d := by
      intro d hd
      have child : d ∈ e.children := Expr.valueParts_subset hd
      obtain ⟨Δ, u, typed, same⟩ := typed.child_lookup child
      exact ih d child typed (parts d hd) (plain.of_get? fun v => same v (by simp [none]))
    cases e with
    | var v m => exact var_decided v m
    | lam params tys body m => exact lam_decided typed liftable plain (ih body List.mem_cons_self)
    | app f args m => exact app_decided typed liftable plain (part rfl)
    | switch e enum cases m =>
      obtain ⟨_, below⟩ := List.forall_mem_cons.mp below
      exact switch_decided typed liftable plain (part rfl e List.mem_cons_self) below
    | lit l m => exact fun n => iff_of_true (.pure _) (List.forall_mem_nil _)
    | raise x m =>
      cases x with
      | _ => exact fun n => iff_of_true (.pure _) (List.forall_mem_nil _)
    | op o m =>
      intro n
      have first : ¬ (o.isHigherOrder || o == .resolveDefault) = true := by
        simpa [Expr.liftableNode] using node
      rw [Expr.lift, if_neg first]
      exact iff_of_true (.supply _) (List.forall_mem_nil _)
    | location l m => cases node
    | rescue body x handler m =>
      intro n
      obtain ⟨hb, hh⟩ : Decided ctx body ∧ Decided ctx handler := by
        simpa [Expr.valueParts, Expr.children] using part rfl
      have knows : ctx.Knows (.rescue body x handler m) ↔ ctx.Knows body ∧ ctx.Knows handler := by
        rw [knows_iff rfl rfl]
        simp [Expr.children]
      rw [knows]
      cases x with
      | empty =>
        exact succeeds_bind (hb n) fun _ k _ => succeeds_last (hh k) fun _ _ _ => .supply _
      | _ =>
        exact succeeds_bind (hb n) fun _ k _ => succeeds_last (hh k) fun _ _ _ => .pure _
    | force e m | component e index size m | field e struct name m | inject enum ctor e m
    | assert e m =>
      intro n
      rw [knows_iff rfl rfl, Expr.children, List.forall_mem_singleton]
      exact succeeds_last (part rfl e List.mem_cons_self n) fun _ _ _ => .supply _
    | tuple es m | array es m =>
      intro n
      rw [knows_iff rfl rfl]
      exact succeeds_last (liftAll_succeeds (part rfl)) fun _ _ _ => .supply _
    | record struct fields m =>
      intro n
      rw [knows_iff rfl rfl]
      exact succeeds_last (liftNamed_succeeds (part rfl)) fun _ _ _ => .supply _
    | ite cond yes no m =>
      intro n
      obtain ⟨hc, hy, hn⟩ : Decided ctx cond ∧ Decided ctx yes ∧ Decided ctx no := by
        simpa [Expr.valueParts, Expr.children] using part rfl
      have knows : ctx.Knows (.ite cond yes no m) ↔
          ctx.Knows cond ∧ ctx.Knows yes ∧ ctx.Knows no := by
        rw [knows_iff rfl rfl]
        simp [Expr.children]
      rw [knows]
      exact succeeds_bind (hc n) fun _ k _ => succeeds_bind (hy k) fun _ k _ =>
        succeeds_last (hn k) fun _ _ _ => .supply _
    | default exceptions just cons m =>
      intro n
      obtain ⟨hes, hj, hc⟩ : (∀ e ∈ exceptions, Decided ctx e) ∧ Decided ctx just ∧
          Decided ctx cons := by
        simpa [Expr.valueParts, Expr.children, or_imp, forall_and] using part rfl
      have knows : ctx.Knows (.default exceptions just cons m) ↔
          (∀ e ∈ exceptions, ctx.Knows e) ∧ ctx.Knows just ∧ ctx.Knows cons := by
        rw [knows_iff rfl rfl]
        simp [Expr.children, or_imp, forall_and]
      rw [knows]
      exact succeeds_bind (liftAll_succeeds hes) fun _ k _ => succeeds_bind (hj k) fun _ k _ =>
        succeeds_last (hc k) fun _ _ _ => .supply _

/-- Lifting a well-typed expression can only fail where it looks up a variable that stands for no
value. With a context for the variables of the environment that leaves those parameters of delayed
values that are used in them: an expression without such a use is always lifted. -/
theorem lift_succeeds_iff (decls : Decls) (env : Env) (e t : Expr Mark) (ordered : e.Ordered)
    (checked : e.synthesize decls env = .ok t) (liftable : t.liftable = true) (ctx : Ctx)
    (known : ∀ v u, env.var? v = some u → ∃ b, ctx.get? v = some b ∧ b.mode ≠ .scope) (n : Nat) :
    ((∃ out m, t.lift ctx n = (.ok out, m)) ↔
      ∀ v ∈ t.lookups, ∃ b, ctx.get? v = some b ∧ b.mode ≠ .scope) ∧
    (t.lookups ⊆ t.free → ∃ out m, t.lift ctx n = (.ok out, m)) := by
  obtain ⟨typed, _⟩ := synthesize_hasTy ordered checked
  have resolves (v : Var) (u : Ty) (hv : VarTy env ∅ v u) : ctx.Resolves v := by
    obtain ⟨w, found, _⟩ := hv
    exact known v w found
  have plain : ctx.Plain env ∅ := by
    intro v b ts u bound hv
    obtain ⟨b', bound', mode⟩ := resolves v _ hv
    cases bound.symm.trans bound'
    exact mode
  have decided := lift_decided t typed liftable plain n
  refine ⟨decided, fun sub => decided.mpr fun v hv => ?_⟩
  obtain ⟨u, hu⟩ := typed.exists_varTy (sub hv)
  exact resolves v u hu

section Example

/-- `fun (x : unit) => x` -/
def unitIdentity : Expr Mark := .lam [⟨0, "x"⟩] [.unit] (.var ⟨0, "x"⟩ .blank) .blank

/-- A delayed value that uses its parameter has no lifted form: the parameter is looked up, and nothing
stands for it. -/
theorem unitIdentity_not_lifted : unitIdentity.Ordered ∧
    ∃ t, unitIdentity.synthesize ⟨∅, ∅⟩ .empty = .ok t ∧ t.liftable = true ∧
      t.lookups = [⟨0, "x"⟩] ∧ ¬ ∃ out m, t.lift ∅ 1 = (.ok out, m) := by
  have found : (unitIdentity.synthesize ⟨∅, ∅⟩ .empty).toOption.any (fun t =>
      t.liftable && decide (t.lookups = [⟨0, "x"⟩]) && (t.lift ∅ 1).1.toOption.isNone) = true := by
    decide +kernel
  obtain ⟨t, checked, found⟩ := exists_ok found
  simp only [Bool.and_eq_true, decide_eq_true_eq] at found
  obtain ⟨⟨liftable, lookups⟩, isNone⟩ := found
  refine ⟨by decide, t, checked, liftable, lookups, ?_⟩
  rintro ⟨out, m, lifted⟩
  simp [lifted, Except.toOption] at isNone

/-- `fun (x : option int) (_ : unit) => match x with Absent => fun u => u | Present => fun _ => paid ()`,
where the parameter of a case is used and that of the delayed value is not. -/
def payment : Expr Mark :=
  let paid : Expr Mark := .app (.var ⟨0, "paid"⟩ .blank) [.lit .unit .blank] .blank
  let absent : Expr Mark := .lam [⟨3, "u"⟩] [.unit] (.var ⟨3, "u"⟩ .blank) .blank
  let present : Expr Mark := .lam [⟨4, "n"⟩] [.int] paid .blank
  let choice : Expr Mark := .switch (.var ⟨1, "x"⟩ .blank) Optional.enum
    [(Optional.absent, absent), (Optional.present, present)] .blank
  .lam [⟨1, "x"⟩] [.option .int] (.lam [⟨2, "_"⟩] [.unit] choice .blank) .blank

def paidEnv : Env := Env.empty.bindVar ⟨0, "paid"⟩ (.arrow [.unit] .unit)

def paidCtx : Ctx := Dict.insert ∅ ⟨0, "paid"⟩ ⟨⟨5, "paid"⟩, .option⟩

theorem payment_lifted : ∃ t out m, payment.synthesize ⟨∅, ∅⟩ paidEnv = .ok t ∧
    t.lookups = [⟨0, "paid"⟩] ∧ t.lift paidCtx 6 = (.ok out, m) := by
  have found : (payment.synthesize ⟨∅, ∅⟩ paidEnv).toOption.any (fun t =>
      t.liftable && decide (t.lookups = [⟨0, "paid"⟩]) && decide (t.lookups ⊆ t.free)) = true := by
    decide +kernel
  have known : ∀ v u, paidEnv.var? v = some u → ∃ b, paidCtx.get? v = some b ∧ b.mode ≠ .scope := by
    refine Dict.forall_get?_iff.mpr (List.forall_mem_singleton.mpr ?_)
    exact ⟨_, rfl, nofun⟩
  obtain ⟨t, checked, found⟩ := exists_ok found
  simp only [Bool.and_eq_true, decide_eq_true_eq] at found
  obtain ⟨⟨liftable, lookups⟩, sub⟩ := found
  obtain ⟨_, succeeds⟩ := lift_succeeds_iff ⟨∅, ∅⟩ paidEnv payment t (by decide) checked liftable
    paidCtx known 6
  obtain ⟨out, m, lifted⟩ := succeeds sub
  exact ⟨t, out, m, checked, lookups, lifted⟩

end Example

end Lift

end Ordinance
