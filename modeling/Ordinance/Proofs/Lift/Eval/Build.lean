import Ordinance.Proofs.Eval.Run
import Ordinance.Proofs.Lift.Eval.Value
import Ordinance.Proofs.Lift.Run

namespace Ordinance.Lift

open Eval

/-- A lifted computation, which ends as stated, does what one with the given result does: it gives
the option for a value, or its absence, and raises the other exceptions. -/
inductive Follows (P : Expr Mark → Prop) (ends : Result → Prop) : Result → Prop
  | value {v w : Value} : StandsFor P v w → ends (.ok w.present) → Follows P ends (.ok v)
  | absent : ends (.ok .absent) → Follows P ends (.error (.raised .empty))
  | raised {x : Exn} : x ≠ .empty → ends (.error (.raised x)) → Follows P ends (.error (.raised x))
  | stuck : Follows P ends (.error .stuck)
  | exhausted : Follows P ends (.error .exhausted)

/-- What functions return is what those that stand for them return. -/
def CallsFollow (P : Expr Mark → Prop) (call : Value → List Value → Result) : Prop :=
  ∀ g g' vs ws, StandsFor P g g' → List.Forall₂ (StandsFor P) vs ws →
    Follows P (Returns g' ws) (call g vs)

variable {P : Expr Mark → Prop}

theorem Follows.imp {ends ends' : Result → Prop} {r : Result} (h : Follows P ends r)
    (le : ∀ r, ends r → ends' r) : Follows P ends' r := by
  cases h with
  | value hw h => exact .value hw (le _ h)
  | absent h => exact .absent (le _ h)
  | raised ne h => exact .raised ne (le _ h)
  | stuck => exact .stuck
  | exhausted => exact .exhausted

section Agreement

variable {n m : Nat} {env env' env₁ env₂ : Vars} {x : Var} {w : Value}

/-- The variables numbered below `n` have the same values. -/
def AgreeBelow (n : Nat) (env env' : Vars) : Prop :=
  ∀ x : Var, x.id < n → Dict.lookup? x env' = Dict.lookup? x env

theorem AgreeBelow.refl (n : Nat) (env : Vars) : AgreeBelow n env env := fun _ _ => rfl

theorem AgreeBelow.trans (h : AgreeBelow n env env₁) (h' : AgreeBelow m env₁ env₂) (le : n ≤ m) :
    AgreeBelow n env env₂ := by
  intro x hx
  rw [h' x (Nat.lt_of_lt_of_le hx le), h x hx]

theorem AgreeBelow.insert (hx : n ≤ x.id) (w : Value) :
    AgreeBelow n env (Dict.insertEntry x w env) := by
  intro y hy
  have ne : y ≠ x := by
    rintro rfl
    omega
  simp [ne]

/-- The variables have the values, in order. -/
def Bound (env : Vars) (xs : List Var) (ws : List Value) : Prop :=
  List.Forall₂ (fun x w => Dict.lookup? x env = some w) xs ws

theorem bound_extend {xs : List Var} {ws : List Value} (nodup : xs.Nodup)
    (count : xs.length = ws.length) : Bound (extend env (xs.zip ws)) xs ws := by
  refine List.forall₂_iff_zip.mpr ⟨count, fun mem => lookup?_extend_of_mem ?_ mem⟩
  rwa [List.map_fst_zip (Nat.le_of_eq count)]

theorem AgreeBelow.extend {xs : List Var} (fresh : ∀ x ∈ xs, n ≤ x.id) (ws : List Value) :
    AgreeBelow n env (extend env (xs.zip ws)) := by
  intro y hy
  refine lookup?_extend_of_notMem fun mem => ?_
  obtain ⟨b, hb, rfl⟩ := List.mem_map.mp mem
  have := fresh _ (List.of_mem_zip hb).1
  omega

theorem Bound.refs {xs : List Var} {ws : List Value} (h : Bound env xs ws) (span : Span) :
    FinishesAll env (refs xs span) (.ok ws) :=
  finishesAll_of_forall₂ (List.forall₂_map_left_iff.mpr (h.imp fun _ _ found => .var found))

theorem Bound.wrapped {xs : List Var} {ws : List Value} (h : Bound env xs ws) (span : Span) :
    List.Forall₂ (fun e v => Finishes env e (.ok v)) (xs.map fun x => wrap (ref x span) span)
      (ws.map .present) := by
  rw [List.forall₂_map_left_iff, List.forall₂_map_right_iff]
  exact h.imp fun _ _ found => .inject (.var found)

end Agreement

/-- Wherever the variables numbered below `n` are as in `env`, the lifted expression follows `r`. -/
def Tracks (P : Expr Mark → Prop) (n : Nat) (env : Vars) (r : Result) (out : Expr Mark) : Prop :=
  ∀ env', AgreeBelow n env env' → Follows P (Finishes env' out) r

variable {n k : Nat} {env : Vars} {span : Span} {x : Var} {arg body ifAbsent ifPresent : Expr Mark}
  {args es : List (Expr Mark)} {ra : Result} {run : Expr Mark → Result}

section Inspect

/-- What the inspection of an option does, where `y` is the variable of the absent case. -/
structure Inspects (y : Var) (arg ifAbsent : Expr Mark) (x : Var) (ifPresent out : Expr Mark) :
    Prop where
  present : ∀ env w r, Finishes env arg (.ok (.present w)) →
    Finishes (Dict.insertEntry x w env) ifPresent r → Finishes env out r
  absent : ∀ env r, Finishes env arg (.ok .absent) →
    Finishes (Dict.insertEntry y .unit env) ifAbsent r → Finishes env out r
  error : ∀ env h, Finishes env arg (.error h) → Finishes env out (.error h)

theorem thunk_finishes (body : Expr Mark) (span : Span) : Draws n (thunk body span) fun out _ =>
    ∃ y, n ≤ y.id ∧ out = lambda [y] [.unit] body span :=
  .bind (.fresh "_") fun y _ _ hy => .pure ⟨y, Nat.le_of_eq hy.1.symm, rfl⟩

theorem inspect_finishes : Draws n (inspect arg ifAbsent x ifPresent span) fun out _ =>
    ∃ y, n ≤ y.id ∧ Inspects y arg ifAbsent x ifPresent out := by
  refine .bind (thunk_finishes ifAbsent span) fun f _ _ hf => .pure ?_
  obtain ⟨y, fresh, rfl⟩ := hf
  refine ⟨y, fresh, ?_, ?_, ?_⟩
  · intro env w r harg hr
    exact .switch harg rfl .lam (.closure rfl hr)
  · intro env r harg hr
    exact .switch harg rfl .lam (.closure rfl hr)
  · intro env h harg
    exact .switch_error harg

end Inspect

section Binds

theorem nothing_finishes (env : Vars) : Finishes env (nothing span) (.ok .absent) := .inject .lit

theorem bind_finishes : Draws n (bind x arg body span) fun out _ =>
    ∃ y, Inspects y arg (nothing span) x body out :=
  inspect_finishes.imp fun _ _ _ ⟨y, _, inspects⟩ => ⟨y, inspects⟩

/-- `bind` goes on with the payload, and ends where there is none. -/
theorem bind_follows (P : Expr Mark → Prop) :
    Draws n (bind x arg body span) fun out _ => ∀ env ra f, Follows P (Finishes env arg) ra →
      (∀ v w, StandsFor P v w → Follows P (Finishes (Dict.insertEntry x w env) body) (f v)) →
      Follows P (Finishes env out) (ra >>= f) := by
  refine bind_finishes.imp fun out _ _ hout env ra f harg hbody => ?_
  obtain ⟨y, inspects⟩ := hout
  cases harg with
  | @value v w hw harg => exact (hbody v w hw).imp fun r hr => inspects.present env w r harg hr
  | absent harg => exact .absent (inspects.absent env _ harg (nothing_finishes _))
  | raised ne harg => exact .raised ne (inspects.error env _ harg)
  | stuck => exact .stuck
  | exhausted => exact .exhausted

/-- `bind` of a new variable: what is made from it goes on with the payload. -/
theorem bindFresh_follows (P : Expr Mark → Prop) {g : Var → Supply (Expr Mark)}
    {R : Var → Expr Mark → Prop}
    (hg : ∀ x m, x.id = k → m = k + 1 → Draws m (g x) fun body _ => R x body) :
    Draws k (bindFresh arg g span) fun out _ => ∃ x body, x.id = k ∧ R x body ∧ ∀ env ra f,
      Follows P (Finishes env arg) ra →
      (∀ v w, StandsFor P v w → Follows P (Finishes (Dict.insertEntry x w env) body) (f v)) →
      Follows P (Finishes env out) (ra >>= f) := by
  refine .bind (.fresh "x") fun x m _ hx => ?_
  refine .bind (hg x m hx.1 hx.2) fun body _ _ hbody => ?_
  exact (bind_follows P).imp fun out _ _ follows => ⟨x, body, hx.1, hbody, follows⟩

theorem bindFresh_tracks {g : Var → Supply (Expr Mark)} {f : Value → Result} (le : n ≤ k)
    (harg : Tracks P n env ra arg)
    (hg : ∀ x m, x.id = k → m = k + 1 → Draws m (g x) fun body _ => ∀ v w env₁, StandsFor P v w →
      AgreeBelow n env env₁ → Dict.lookup? x env₁ = some w → Follows P (Finishes env₁ body) (f v)) :
    Draws k (bindFresh arg g span) fun out _ => Tracks P n env (ra >>= f) out := by
  refine (bindFresh_follows P hg).imp fun out _ _ hout env' agree => ?_
  obtain ⟨x, body, hx, hbody, follows⟩ := hout
  refine follows env' ra f (harg env' agree) fun v w hw => ?_
  have below : n ≤ x.id := by omega
  exact hbody v w _ hw (agree.trans (.insert below w) (Nat.le_refl n)) (by simp)

theorem runAll_cons {α : Type} (e : Expr Mark) (es : List (Expr Mark))
    (f : List Value → Except Halt α) :
    runAll run (e :: es) >>= f = run e >>= fun v => runAll run es >>= fun vs => f (v :: vs) := by
  simp only [runAll, bind_assoc, pure_bind]

/-- One bind for each argument: each is evaluated with the payloads of those before it at hand. -/
theorem bindEach_follows {xs : List Var}
    (hargs : List.Forall₂ (fun e arg => Tracks P n env (run e) arg) es args)
    (length : xs.length = args.length) (fresh : ∀ x ∈ xs, n ≤ x.id) (i : Nat) :
    Draws i (bindEach body span (xs.zip args)) fun out _ => ∀ env₁ (f : List Value → Result),
      AgreeBelow n env env₁ →
      (∀ vs ws, List.Forall₂ (StandsFor P) vs ws → xs.length = ws.length →
        Follows P (Finishes (extend env₁ (xs.zip ws)) body) (f vs)) →
      Follows P (Finishes env₁ out) (runAll run es >>= f) := by
  induction hargs generalizing xs i with
  | nil =>
    obtain rfl := List.eq_nil_of_length_eq_zero length
    exact .pure fun env₁ f _ hbody => hbody [] [] .nil rfl
  | @cons e arg es args harg _ ih =>
    obtain ⟨x, xs, rfl⟩ := List.exists_cons_of_length_eq_add_one length
    obtain ⟨fresh, freshs⟩ := List.forall_mem_cons.mp fresh
    refine .bind (ih (Nat.succ.inj length) freshs i) fun rest j _ hrest => ?_
    refine (bind_follows P).imp fun out _ _ follows env₁ f agree hbody => ?_
    rw [runAll_cons]
    refine follows env₁ _ _ (harg env₁ agree) fun v w hw => ?_
    have inner : AgreeBelow n env (Dict.insertEntry x w env₁) :=
      agree.trans (.insert fresh w) (Nat.le_refl n)
    refine hrest _ _ inner fun vs ws hvs count => ?_
    exact hbody (v :: vs) (w :: ws) (.cons hw hvs) (congrArg (· + 1) count)

/-- All arguments in order; `body` is made from the new variables, which hold the payloads. -/
theorem bindAll_follows {body : List Var → Expr Mark} (le : n ≤ k)
    (hargs : List.Forall₂ (fun e arg => Tracks P n env (run e) arg) es args) :
    Draws k (bindAll args (fun xs => (pure (body xs) : Supply (Expr Mark))) span) fun out _ =>
      ∀ env₁ (f : List Value → Result), AgreeBelow n env env₁ →
      (∀ xs vs ws env₂, vs.length = es.length → List.Forall₂ (StandsFor P) vs ws →
        AgreeBelow k env₁ env₂ → Bound env₂ xs ws → Follows P (Finishes env₂ (body xs)) (f vs)) →
      Follows P (Finishes env₁ out) (runAll run es >>= f) := by
  refine .bind (.freshMany "x" args.length) fun xs m _ hxs => ?_
  obtain ⟨length, nodup, bounds⟩ := hxs
  change Draws m (bindEach (body xs) span (xs.zip args)) _
  have fresh : ∀ x ∈ xs, n ≤ x.id := fun x hx => Nat.le_trans le (bounds x hx).1
  refine (bindEach_follows hargs length fresh m).imp fun out _ _ follows env₁ f agree hbody => ?_
  refine follows env₁ f agree fun vs ws hvs count => ?_
  have total : vs.length = es.length := by
    rw [hvs.length_eq, ← count, length, hargs.length_eq]
  exact hbody xs vs ws _ total hvs (.extend (fun x hx => (bounds x hx).1) ws)
    (bound_extend nodup count)

end Binds

end Ordinance.Lift
