import Ordinance.Proofs.Lift.Eval.Forms
import Ordinance.Proofs.Lift.Hygiene.Expr

namespace Ordinance.Lift

open Eval

variable {P : Expr Mark → Prop}

section Contexts

variable {ctx : Ctx} {n m : Nat} {env env' env₁ : Vars} {v x : Var} {w w' : Value}

/-- The variables of lifted expressions have values that stand for those of the variables they are
for. -/
structure Agrees (P : Expr Mark → Prop) (ctx : Ctx) (env env' : Vars) : Prop where
  covers : ctx.Covers env env'
  related : ∀ v b w w', ctx.get? v = some b → Dict.lookup? v env = some w →
    Dict.lookup? b.target env' = some w' → StandsFor P w w'

theorem Agrees.lookup {b : Binding} (h : Agrees P ctx env env') (bound : ctx.get? v = some b)
    (found : Dict.lookup? v env = some w) :
    ∃ w', Dict.lookup? b.target env' = some w' ∧ StandsFor P w w' := by
  obtain ⟨w', found'⟩ := Option.isSome_iff_exists.mp (h.covers v b w bound found)
  exact ⟨w', found', h.related v b w w' bound found found'⟩

theorem agrees_of_lookup (h : ∀ v b w, ctx.get? v = some b → Dict.lookup? v env = some w →
    ∃ w', Dict.lookup? b.target env' = some w' ∧ StandsFor P w w') : Agrees P ctx env env' := by
  constructor
  · intro v b w bound found
    obtain ⟨w', found', _⟩ := h v b w bound found
    simp [found']
  · intro v b w w' bound found found'
    obtain ⟨w'', found'', corresponds⟩ := h v b w bound found
    obtain rfl : w'' = w' := by simpa [found''] using found'
    exact corresponds

theorem agrees_nil : Agrees P ctx [] [] := agrees_of_lookup nofun

theorem Ctx.Payloads.mono (h : ctx.Payloads n) (le : n ≤ m) : ctx.Payloads m := fun v b bound =>
  ⟨(h v b bound).1, Nat.lt_of_lt_of_le (h v b bound).2 le⟩

theorem Agrees.below (h : Agrees P ctx env env') (payloads : ctx.Payloads n)
    (agree : AgreeBelow n env' env₁) : Agrees P ctx env env₁ := by
  refine agrees_of_lookup fun v b w bound found => ?_
  obtain ⟨w', found', corresponds⟩ := h.lookup bound found
  exact ⟨w', by rw [agree _ (payloads v b bound).2, found'], corresponds⟩

theorem bind_agrees (P : Expr Mark → Prop) (payloads : ctx.Payloads n) :
    Draws n (ctx.bind v .payload) fun r m => r.1.Payloads m ∧
      ∀ env env' w w', Agrees P ctx env env' → StandsFor P w w' →
        Agrees P r.1 (Dict.insertEntry v w env) (Dict.insertEntry r.2 w' env') := by
  refine .bind (.fresh v.name) fun x m le hx => .pure ?_
  obtain ⟨rfl, rfl⟩ := hx
  constructor
  · intro u b bound
    rw [Dict.get?_insert] at bound
    split at bound
    next =>
      cases bound
      exact ⟨rfl, Nat.lt_succ_self _⟩
    next => exact payloads.mono le u b bound
  · intro env env' w w' agrees corresponds
    refine agrees_of_lookup fun u b value bound found => ?_
    rw [Dict.get?_insert] at bound
    rw [Dict.lookup?_insertEntry] at found
    by_cases eq : u = v
    · rw [if_pos eq] at bound found
      cases bound
      cases found
      exact ⟨w', by simp, corresponds⟩
    · rw [if_neg eq] at bound found
      have ne : b.target ≠ x := by
        intro eq
        have := (payloads u b bound).2
        rw [eq] at this
        exact Nat.lt_irrefl _ this
      obtain ⟨value', found', corresponds'⟩ := agrees.lookup bound found
      exact ⟨value', by simp [ne, found'], corresponds'⟩

theorem bindParams_agrees (P : Expr Mark → Prop) (vs : List Var) (payloads : ctx.Payloads n) :
    Draws n (ctx.bindParams vs) fun r m => r.1.Payloads m ∧ r.2.length = vs.length ∧
      ∀ env env' ws ws', Agrees P ctx env env' → List.Forall₂ (StandsFor P) ws ws' →
        vs.length = ws.length →
        Agrees P r.1 (extend env (vs.zip ws)) (extend env' (r.2.zip ws')) := by
  induction vs generalizing ctx n with
  | nil => exact .pure ⟨payloads, rfl, fun env env' ws ws' agrees _ _ => agrees⟩
  | cons v vs ih =>
    refine .bind (bind_agrees P payloads) fun r i le hr => ?_
    obtain ⟨payloads', first⟩ := hr
    refine .bind (ih payloads') fun r' i' le' hr' => .pure ?_
    obtain ⟨payloads'', length, rest⟩ := hr'
    refine ⟨payloads'', congrArg (· + 1) length, fun env env' ws ws' agrees hws count => ?_⟩
    obtain ⟨w, ws, rfl⟩ := List.exists_cons_of_length_eq_add_one count.symm
    obtain ⟨w', ws', head, tail, rfl⟩ := List.forall₂_cons_left_iff.mp hws
    exact rest _ _ ws ws' (first env env' w w' agrees head) tail (Nat.succ.inj count)

end Contexts

section Simulation

/-- Wherever the expression is lifted with numbers from `n` upwards, the result follows `r`. -/
def LiftsAs (P : Expr Mark → Prop) (ctx : Ctx) (n : Nat) (env : Vars) (e : Expr Mark) (r : Result) :
    Prop :=
  ∀ ⦃k⦄, n ≤ k → Lifts k (e.lift ctx) fun out _ => Tracks P n env r out

/-- Every lifted form of the expression follows what `run` makes of the expression. -/
def Simulated (P : Expr Mark → Prop) (run : Vars → Expr Mark → Result) (e : Expr Mark) : Prop :=
  ∀ ⦃ctx n env env'⦄, ctx.Payloads n → Agrees P ctx env env' →
    LiftsAs P ctx n env' e (run env e)

/-- Calls follow those of the values that stand for functions and for operators that do not call
their arguments. Functions and operators are values themselves, as soon as one step can be taken. -/
structure Interprets (P : Expr Mark → Prop) (run : Vars → Expr Mark → Result)
    (call : Value → List Value → Result) : Prop where
  lam : ∀ env params tys body m, run env (.lam params tys body m) = .ok (.closure params body env) ∨
    run env (.lam params tys body m) = .error .exhausted
  op : ∀ env o m, run env (.op o m) = .ok (.op o) ∨ run env (.op o m) = .error .exhausted
  functions : CallsFollow P call
  operators : ∀ o vs ws, (o.isHigherOrder || o == .resolveDefault) = false →
    List.Forall₂ (StandsFor P) vs ws → call (.op o) vs = .error .stuck ∨
      call (.op o) vs = .error .exhausted ∨
      ∃ v w, call (.op o) vs = .ok v ∧ StandsFor P v w ∧ Returns (.op o) ws (.ok w)

variable {ctx : Ctx} {n k : Nat} {env env' : Vars} {e : Expr Mark} {es : List (Expr Mark)}
  {r : Result}

/-- A computation that goes on with the lifted expression. -/
theorem LiftsAs.bind {α : Type} {g : Expr Mark → LiftM α} {Q : α → Nat → Prop}
    (he : LiftsAs P ctx n env e r) (le : n ≤ k)
    (hg : ∀ out i, n ≤ i → Tracks P n env r out → Lifts i (g out) Q) :
    Lifts k (e.lift ctx >>= g) Q :=
  .bind (he le) fun out i le' hout => hg out i (Nat.le_trans le le') hout

section Lists

variable {run : Expr Mark → Result}

theorem liftAll_tracks (h : ∀ e ∈ es, LiftsAs P ctx n env e (run e)) (le : n ≤ k) :
    Lifts k (Expr.liftAll ctx es) fun outs _ =>
      List.Forall₂ (fun e out => Tracks P n env (run e) out) es outs := by
  induction es generalizing k with
  | nil => exact .pure .nil
  | cons e es ih =>
    obtain ⟨head, rest⟩ := List.forall_mem_cons.mp h
    refine head.bind le fun out i le hout => ?_
    exact .bind (ih rest le) fun outs _ _ houts => .pure (.cons hout houts)

theorem liftNamed_tracks {fields : List (String × Expr Mark)}
    (h : ∀ e ∈ fields.map (·.2), LiftsAs P ctx n env e (run e)) (le : n ≤ k) :
    Lifts k (Expr.liftNamed ctx fields) fun outs _ => outs.map (·.1) = fields.map (·.1) ∧
      List.Forall₂ (fun e out => Tracks P n env (run e) out) (fields.map (·.2))
        (outs.map (·.2)) := by
  induction fields generalizing k with
  | nil => exact .pure ⟨rfl, .nil⟩
  | cons f fields ih =>
    obtain ⟨head, rest⟩ := List.forall_mem_cons.mp h
    refine head.bind le fun out i le hout => ?_
    refine .bind (ih rest le) fun outs _ _ houts => .pure ?_
    exact ⟨congrArg (f.1 :: ·) houts.1, .cons hout houts.2⟩

end Lists

variable {run : Vars → Expr Mark → Result} {call : Value → List Value → Result}

section Functions

variable {params : List Var} {body : Expr Mark}

/-- A function stands for another one if its body is lifted from that of the other one. -/
theorem closure_lifts (params : List Var) {α : Type} {g : List Var → Expr Mark → LiftM α}
    {Q : α → Nat → Prop} (payloads : ctx.Payloads n) (agrees : Agrees P ctx env env')
    (holds : P body) (le : n ≤ k)
    (hg : ∀ targets body' i, n ≤ i → (∀ env₁, AgreeBelow n env' env₁ →
      StandsFor P (.closure params body env) (.closure targets body' env₁)) →
      Lifts i (g targets body') Q) :
    Lifts k (liftM (ctx.bindParams params) >>= fun r => body.lift r.1 >>= g r.2) Q := by
  have payloads' := payloads.mono le
  refine .bind (.supply (bindParams_agrees P params payloads').run) fun r i le' hr => ?_
  obtain ⟨_, bound⟩ := hr
  refine .bind (lift_draws body).run fun body' j le'' hbody => ?_
  refine hg r.2 body' j (by omega) fun env₁ agree => ?_
  have agrees := agrees.below payloads agree
  exact .closure payloads' agrees.covers agrees.related bound hbody.2 holds

theorem lam_simulated {tys : List Ty} {m : Mark}
    (node : (Expr.lam params tys body m).isStrictNode = true) (holds : P body) :
    Simulated P (fun env => evalStep (run env) call env) (.lam params tys body m) := by
  intro ctx n env env' payloads agrees k le
  have notUnit (v : Var) (rest : List Ty) : ¬ (params = [v] ∧ tys = .unit :: rest) := by
    rintro ⟨rfl, rfl⟩
    cases node
  rw [lift_lam notUnit]
  refine closure_lifts params (g := fun xs body =>
    pure (wrap (lambda xs (Ty.liftAll tys) body m.span) m.span)) payloads agrees holds le
    fun targets body' i _ corresponds => ?_
  exact .pure fun env₁ agree => .value (corresponds env₁ agree) (.inject .lam)

/-- A lifted case takes the payload itself. -/
theorem liftCases_tracks {cases : List (String × Expr Mark)} (interprets : Interprets P run call)
    (payloads : ctx.Payloads n) (agrees : Agrees P ctx env env')
    (parts : ∀ c ∈ cases, ∀ d ∈ c.2.caseParts, P d) (le : n ≤ k) :
    Lifts k (Expr.liftCases ctx cases) fun outs _ =>
      List.Forall₂ (fun c c' => c.1 = c'.1 ∧ CaseTracks P n env' (run env) call c.2 c'.2) cases
        outs := by
  induction cases generalizing k with
  | nil => exact .pure .nil
  | cons x cases ih =>
    obtain ⟨here, rest⟩ := List.forall_mem_cons.mp parts
    obtain ⟨name, c⟩ := x
    cases c with
    | lam vs tys body m =>
      match vs with
      | [] => exact .fail
      | _ :: _ :: _ => exact .fail
      | [v] =>
        refine closure_lifts [v] (g := fun xs body => Expr.liftCases ctx cases >>= fun es =>
          pure ((name, lambda xs (Ty.liftAll tys) body m.span) :: es)) payloads
          agrees (here body List.mem_cons_self) le fun targets body' i le corresponds => ?_
        refine .bind (ih rest le) fun outs _ _ houts => .pure (.cons ⟨rfl, ?_⟩ houts)
        intro u w env₁ hw agree
        rcases interprets.lam env [v] tys body m with closure | exhausted
        · rw [closure]
          have follows := interprets.functions _ _ [u] [w] (corresponds env₁ agree) (.cons hw .nil)
          exact follows.imp fun r hr => ⟨_, .lam, hr⟩
        · rw [exhausted]
          exact .exhausted
    | _ => exact .fail

/-- What functions return if `run` evaluates their bodies. -/
theorem applyStep_follows (bodies : ∀ e : Expr Mark, P e → Simulated P run e) {g g' : Value}
    {vs ws : List Value} (hg : StandsFor P g g') (hws : List.Forall₂ (StandsFor P) vs ws) :
    Follows P (Returns g' ws) (applyStep equalData run call g vs) := by
  cases hg with
  | @closure params targets body body' env env' ctx inner n i m payloads covers related bound lifted
      holds =>
    change Follows P _ (if params.length = vs.length then
      run (extend env (params.zip vs)) body else .error .stuck)
    split
    next count =>
      have inside := bindParams_agrees P params payloads
      rw [Draws, bound] at inside
      obtain ⟨_, payloads', length, agrees⟩ := inside
      have agrees := agrees env env' vs ws ⟨covers, related⟩ hws count
      obtain ⟨_, tracks⟩ := bodies body holds payloads' agrees (Nat.le_refl i) body' m lifted
      have count' : targets.length = ws.length := by rw [length, count, hws.length_eq]
      exact (tracks _ (.refl i _)).imp fun r hr => .closure count' hr
    next => exact .stuck
  | @op o xs span env first count nodup =>
    change Follows P _ (applyOp equalData call o vs)
    rcases applyOp_corresponds call first hws with stuck | ⟨v, w, hv, arity, hw, returns⟩
    · rw [stuck]
      exact .stuck
    · rw [hv]
      have count' : xs.length = ws.length := by rw [count, ← arity, hws.length_eq]
      have hop : Returns (.op o) ws (.ok w) := .op ⟨0, fun m _ => returns (Eval.apply m)⟩
      refine .value hw (.closure count' (.inject (.app .op ?_ hop)))
      exact (bound_extend nodup count').refs span
  | _ => exact .stuck

/-- Without a step to take, evaluation says nothing. -/
theorem Interprets.zero (P : Expr Mark → Prop) :
    Interprets P (fun _ _ => .error .exhausted) fun _ _ => .error .exhausted where
  lam _ _ _ _ _ := .inr rfl
  op _ _ _ := .inr rfl
  functions _ _ _ _ _ _ := .exhausted
  operators _ _ _ _ _ := .inr (.inl rfl)

/-- With one step more than the bodies of functions take, functions are called. -/
theorem Interprets.succ {run' : Vars → Expr Mark → Result}
    (bodies : ∀ e : Expr Mark, P e → Simulated P run e)
    (lam : ∀ env params tys body m,
      run' env (.lam params tys body m) = .ok (.closure params body env))
    (op : ∀ env o m, run' env (.op o m) = .ok (.op o)) :
    Interprets P run' (applyStep equalData run call) where
  lam env params tys body m := .inl (lam env params tys body m)
  op env o m := .inl (op env o m)
  functions _ _ _ _ hg hws := applyStep_follows bodies hg hws
  operators o vs ws first hws := by
    rcases applyOp_corresponds call first hws with stuck | ⟨v, w, hv, _, hw, returns⟩
    · exact .inl stuck
    · exact .inr (.inr ⟨v, w, hv, hw, .op ⟨0, fun m _ => returns (Eval.apply m)⟩⟩)

end Functions

section Nodes

theorem app_simulated {f : Expr Mark} {args : List (Expr Mark)} {m : Mark}
    (interprets : Interprets P run call) (node : (Expr.app f args m).isStrictNode = true)
    (first : ∀ o i, f = .op o i → (o.isHigherOrder || o == .resolveDefault) = false)
    (parts : ∀ d ∈ f :: args, Simulated P run d) :
    Simulated P (fun env => evalStep (run env) call env) (.app f args m) := by
  intro ctx n env env' payloads agrees k le
  obtain ⟨hf, hargs⟩ := List.forall_mem_cons.mp parts
  have hargs : ∀ d ∈ args, LiftsAs P ctx n env' d (run env d) := fun d hd =>
    hargs d hd payloads agrees
  by_cases isOp : ∃ o i, f = .op o i
  · obtain ⟨o, mark, rfl⟩ := isOp
    have first := first o mark rfl
    rw [lift_call first]
    refine .bind (liftAll_tracks hargs le) fun outs i le' houts => .supply ?_
    exact opCall_tracks (by omega) (interprets.op env o mark) houts fun vs ws hws =>
      interprets.operators o vs ws first hws
  · refine call_lifts (fun o i eq => isOp ⟨o, i, eq⟩) ?_ (fun forced => ?_) fun _ => ?_
    · rintro v i b struct fields k rfl bound scope rfl
      rw [(payloads _ b bound).1] at scope
      cases scope
    · simp [Expr.isStrictNode, forced] at node
    · refine (hf payloads agrees).bind le fun g i le hg => ?_
      refine .bind (liftAll_tracks hargs le) fun outs i' le' houts => .supply ?_
      exact call_tracks (by omega) hg houts interprets.functions

theorem var_simulated (v : Var) (m : Mark) :
    Simulated P (fun env => evalStep (run env) call env) (.var v m) := by
  intro ctx n env env' payloads agrees k le
  refine .bind (lookup_lifts v m.span) fun b i _ hb => ?_
  have bound := hb.2
  rw [(payloads v b bound).1]
  refine .pure fun env₁ agree => ?_
  change Follows P _ (stuckUnless (Dict.lookup? v env))
  cases found : Dict.lookup? v env with
  | none => exact .stuck
  | some w =>
    obtain ⟨w', found', corresponds⟩ := (agrees.below payloads agree).lookup bound found
    exact .value corresponds (.inject (.var found'))

theorem lit_simulated (l : Literal) (m : Mark) :
    Simulated P (fun env => evalStep (run env) call env) (.lit l m) := by
  intro ctx n env env' payloads agrees k le
  refine .pure fun env₁ _ => ?_
  cases l with
  | bool b => exact .value (.bool b) (.inject .lit)
  | int i => exact .value (.int i) (.inject .lit)
  | money i => exact .value (.money i) (.inject .lit)
  | unit => exact .value .unit (.inject .lit)
  | rat | date | duration => exact .stuck

theorem raise_simulated (x : Exn) (m : Mark) :
    Simulated P (fun env => evalStep (run env) call env) (.raise x m) := by
  intro ctx n env env' payloads agrees k le
  cases x with
  | empty => exact .pure fun env₁ _ => .absent (nothing_finishes env₁)
  | _ => exact .pure fun env₁ _ => .raised nofun .raise

theorem rescue_simulated {body handler : Expr Mark} (x : Exn) (m : Mark)
    (hb : Simulated P run body) (hh : Simulated P run handler) :
    Simulated P (fun env => evalStep (run env) call env) (.rescue body x handler m) := by
  intro ctx n env env' payloads agrees k le
  have hb := hb payloads agrees
  have hh := hh payloads agrees
  cases x with
  | empty =>
    exact hb.bind le fun _ i le hb => hh.bind le fun _ i le hh =>
      .supply (rescueEmpty_tracks le hb hh)
  | _ =>
    exact hb.bind le fun _ i le hb => hh.bind le fun _ i le hh => .pure (rescue_tracks nofun hb hh)

/-- A node is simulated if its parts are. An operator that is called does not call its arguments. -/
theorem node_simulated {e : Expr Mark} (interprets : Interprets P run call)
    (node : e.isStrictNode = true)
    (first : ∀ o i args m, e = .app (.op o i) args m →
      (o.isHigherOrder || o == .resolveDefault) = false)
    (holds : ∀ d ∈ e.liftedParts, P d) (parts : ∀ d ∈ e.liftedParts, Simulated P run d) :
    Simulated P (fun env => evalStep (run env) call env) e := by
  intro ctx n env env' payloads agrees k le
  have part : ∀ d ∈ e.liftedParts, LiftsAs P ctx n env' d (run env d) :=
    fun d hd => parts d hd payloads agrees
  cases e with
  | var v m => exact var_simulated v m payloads agrees le
  | lit l m => exact lit_simulated l m payloads agrees le
  | raise x m => exact raise_simulated x m payloads agrees le
  | lam params tys body m =>
    exact lam_simulated node (holds body List.mem_cons_self) payloads agrees le
  | app f args m =>
    have first : ∀ o i, f = .op o i → (o.isHigherOrder || o == .resolveDefault) = false := by
      rintro o i rfl
      exact first o i args m rfl
    exact app_simulated interprets node first parts payloads agrees le
  | op o m =>
    have first : (o.isHigherOrder || o == .resolveDefault) = false := by
      simpa [Expr.isStrictNode] using node
    rw [Expr.lift, first]
    exact .supply (operator_tracks first)
  | rescue body x handler m =>
    exact rescue_simulated x m (parts body List.mem_cons_self)
      (parts handler (List.mem_cons_of_mem _ List.mem_cons_self)) payloads agrees le
  | force e m =>
    exact (part e List.mem_cons_self).bind le fun _ i le he => .supply (force_tracks he)
  | component e index size m =>
    exact (part e List.mem_cons_self).bind le fun _ i le he => .supply (component_tracks le he)
  | field e struct name m =>
    exact (part e List.mem_cons_self).bind le fun _ i le he => .supply (field_tracks le he)
  | inject enum ctor e m =>
    exact (part e List.mem_cons_self).bind le fun _ i le he => .supply (inject_tracks le he)
  | assert e m =>
    exact (part e List.mem_cons_self).bind le fun _ i le he => .supply (assert_tracks le he)
  | tuple es m =>
    exact .bind (liftAll_tracks part le) fun _ i le' hes => .supply (tuple_tracks (by omega) hes)
  | array es m =>
    exact .bind (liftAll_tracks part le) fun _ i le' hes => .supply (array_tracks (by omega) hes)
  | record struct fields m =>
    exact .bind (liftNamed_tracks part le) fun _ i le' hfs =>
      .supply (record_tracks (by omega) hfs.1 hfs.2)
  | ite cond yes no m =>
    obtain ⟨hc, hy, hn, _⟩ : LiftsAs P ctx n env' cond _ ∧ LiftsAs P ctx n env' yes _ ∧
        LiftsAs P ctx n env' no _ ∧ True := by simpa [Expr.liftedParts, Expr.children] using part
    exact hc.bind le fun _ i le hc => hy.bind le fun _ i le hy => hn.bind le fun _ i le hn =>
      .supply (ite_tracks le hc hy hn)
  | default exceptions just cons m =>
    obtain ⟨hes, hj, hc⟩ : (∀ e ∈ exceptions, LiftsAs P ctx n env' e _) ∧
        LiftsAs P ctx n env' just _ ∧ LiftsAs P ctx n env' cons _ := by
      simpa [Expr.liftedParts, Expr.children, or_imp, forall_and] using part
    refine .bind (liftAll_tracks hes le) fun _ i le' hes => ?_
    exact hj.bind (by omega) fun _ i le hj => hc.bind le fun _ i le hc =>
      .supply (default_tracks le hes hj hc)
  | switch e enum cases m =>
    obtain ⟨he, _⟩ := List.forall_mem_cons.mp part
    have bodies : ∀ c ∈ cases, ∀ d ∈ c.2.caseParts, P d := fun c hc d hd =>
      holds d (List.mem_cons_of_mem _ (List.mem_flatMap.mpr ⟨c, hc, hd⟩))
    refine he.bind le fun _ i le he => ?_
    exact .bind (liftCases_tracks interprets payloads agrees bodies le) fun _ i le' hcases =>
      .supply (switch_tracks (by omega) he hcases)
  | location l m => exact .fail

end Nodes

theorem simulated_zero (P : Expr Mark → Prop) (e : Expr Mark) :
    Simulated P (fun _ _ => .error .exhausted) e :=
  fun _ _ _ _ _ _ _ _ => (lift_draws e).imp fun _ _ _ _ _ _ => .exhausted

/-- Lifted expressions follow the expressions they come from, and lifted functions the functions. -/
theorem evalWith_simulated (fuel : Nat) :
    (∀ e : Expr Mark, e.Strict → Simulated Expr.Strict (evalWith equalData fuel) e) ∧
      Interprets Expr.Strict (evalWith equalData fuel) (applyWith equalData fuel) := by
  induction fuel with
  | zero => exact ⟨fun e _ => simulated_zero _ e, .zero _⟩
  | succ fuel ih =>
    refine ⟨fun e strict => ?_, .succ ih.1 (fun _ _ _ _ _ => rfl) fun _ _ _ => rfl⟩
    cases strict with
    | node node strict =>
      refine node_simulated ih.2 node ?_ strict fun d hd => ih.1 d (strict d hd)
      rintro o i args m rfl
      cases strict _ List.mem_cons_self with
      | node node _ => simpa [Expr.isStrictNode] using node

end Simulation

end Ordinance.Lift
