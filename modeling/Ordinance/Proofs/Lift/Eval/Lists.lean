import Ordinance.Proofs.Eval.Fuel
import Ordinance.Proofs.Lift.Eval.Build
import Ordinance.Samples

namespace Ordinance

namespace Value

/-- The option as a value. -/
def ofOption : Option Value → Value
  | none => absent
  | some v => present v

/-- The option that a match finds in the value. It tells the cases by their names and does not ask
for that of the type. -/
def asOption : Value → Except Eval.Halt (Option Value)
  | inject _ ctor v =>
      if ctor = Optional.present then .ok (some v)
      else if ctor = Optional.absent then .ok none
      else .error .stuck
  | _ => .error .stuck

def asBool : Value → Except Eval.Halt Bool
  | bool b => .ok b
  | _ => .error .stuck

@[simp] theorem asOption_ofOption (o : Option Value) : (ofOption o).asOption = .ok o := by
  cases o with
  | none => simp [ofOption, absent, asOption, Optional.absent, Optional.present]
  | some v => simp [ofOption, present, asOption]

end Value

namespace Eval

section Options

variable (call : List Value → Result)

/-- What a function returns for an element. An absent one stays absent, without a call. -/
def onOption : Option Value → Result
  | none => .ok .absent
  | some v => call [v]

/-- Whether an element passes. It is an error if the element is absent, or the answer. -/
def testOption (o : Option Value) : Except Halt Bool := do
  match ← (← onOption call o).asOption with
  | none => .error (.raised .noValue)
  | some answer => answer.asBool

/-- The left fold, which is absent as soon as the value so far or an element is. -/
def foldOptions (acc : Value) : List (Option Value) → Result
  | [] => .ok acc
  | o :: os => do
      match ← acc.asOption, o with
      | some a, some v => foldOptions (← call [a, v]) os
      | _, _ => return .absent

/-- The left fold from the first element on; `init` is for want of one. -/
def reduceOptions (init : Value) : List (Option Value) → Result
  | [] => .ok init
  | o :: os => foldOptions call (.ofOption o) os

end Options

end Eval

namespace Lift

open Eval

variable {n k : Nat} {env : Vars} {span : Span} {x : Var} {arg body ifAbsent ifPresent : Expr Mark}

section Open

/-- Goes on with the payload of an option, or else with `otherwise`. -/
def opened (r otherwise : Result) (f : Value → Result) : Result := do
  (← (← r).asOption).elim otherwise f

theorem opened_of_asOption {v : Value} {o : Option Value} (h : v.asOption = .ok o)
    (otherwise : Result) (f : Value → Result) :
    opened (.ok v) otherwise f = o.elim otherwise f := by
  change (v.asOption >>= fun o => o.elim otherwise f) = _
  rw [h]
  rfl

@[simp] theorem opened_ofOption (o : Option Value) (otherwise : Result) (f : Value → Result) :
    opened (.ok (.ofOption o)) otherwise f = o.elim otherwise f :=
  opened_of_asOption (Value.asOption_ofOption o) otherwise f

theorem opened_of_error {v : Value} {h : Halt} (stuck : v.asOption = .error h)
    (otherwise : Result) (f : Value → Result) : opened (.ok v) otherwise f = .error h := by
  change (v.asOption >>= fun o => o.elim otherwise f) = _
  rw [stuck]
  rfl

theorem inspect_opens : Draws n (inspect arg ifAbsent x ifPresent span) fun out _ =>
    ∀ env r otherwise f, Finishes env arg r → (∀ env, Finishes env ifAbsent otherwise) →
      (∀ v, Finishes (Dict.insertEntry x v env) ifPresent (f v)) →
      Finishes env out (opened r otherwise f) := by
  refine .bind (thunk_finishes ifAbsent span) fun g _ _ hg => .pure ?_
  obtain ⟨y, _, rfl⟩ := hg
  intro env r otherwise f harg habsent hpresent
  cases r with
  | error h => exact .switch_error harg
  | ok v =>
    cases v with
    | inject enum ctor w =>
      by_cases present : ctor = Optional.present
      · subst present
        exact .switch harg rfl .lam (.closure rfl (hpresent w))
      by_cases absent : ctor = Optional.absent
      · subst absent
        exact .switch harg rfl .lam (.closure rfl (habsent _))
      · have stuck : (Value.inject enum ctor w).asOption = .error .stuck := by
          simp [Value.asOption, present, absent]
        rw [opened_of_error stuck]
        refine .switch_stuck harg fun enum' ctor' w' eq => ?_
        cases eq
        have first : (ctor == Optional.absent) = false := beq_eq_false_iff_ne.mpr absent
        have second : (ctor == Optional.present) = false := beq_eq_false_iff_ne.mpr present
        simp [List.lookup_cons, first, second]
    | _ => exact .switch_stuck harg fun _ _ _ eq => by cases eq

theorem bind_opens : Draws n (bind x arg body span) fun out _ =>
    ∀ env r f, Finishes env arg r → (∀ v, Finishes (Dict.insertEntry x v env) body (f v)) →
      Finishes env out (opened r (.ok .absent) f) :=
  inspect_opens.imp fun _ _ _ opens env r f harg hbody =>
    opens env r _ f harg nothing_finishes hbody

theorem unwrap_opens : Draws n (unwrap arg span) fun out _ =>
    ∀ env r, Finishes env arg r →
      Finishes env out (opened r (.error (.raised .noValue)) .ok) :=
  .bind (.fresh "x") fun _ _ _ _ => inspect_opens.imp fun _ _ _ opens env r harg =>
    opens env r _ _ harg (fun _ => .raise) fun v => .var (by simp)

end Open

section Callbacks

variable {f : Var}

theorem ne_of_id_lt {u v : Var} (h : u.id < v.id) : u ≠ v := by
  rintro rfl
  exact Nat.lt_irrefl _ h

/-- A function is called with the payload of an element, if it has one. -/
theorem onElement_finishes (hf : f.id < x.id) (hx : x.id < k) :
    Draws k (onElement f x span) fun body _ => ∀ env g call o, Dict.lookup? f env = some g →
      (∀ args, Returns g args (call args)) →
      Finishes (Dict.insertEntry x (.ofOption o) env) body (onOption call o) := by
  refine .bind (.fresh "x") fun y i _ hy => ?_
  change Draws i (bind y (ref x span) (apply (ref f span) [ref y span] span) span) _
  refine bind_opens.imp fun out _ _ opens env g call o found calls => ?_
  have element : Finishes (Dict.insertEntry x (.ofOption o) env) (ref x span) (.ok (.ofOption o)) :=
    .var (by simp)
  have body (v : Value) : Finishes (Dict.insertEntry y v (Dict.insertEntry x (.ofOption o) env))
      (apply (ref f span) [ref y span] span) (call [v]) := by
    have first : f ≠ y := ne_of_id_lt (by omega)
    have second : f ≠ x := ne_of_id_lt hf
    exact .app (.var (by simp [first, second, found])) (.cons (.var (by simp)) .nil) (calls [v])
  have result := opens _ _ _ element body
  rw [opened_ofOption] at result
  cases o with
  | none => exact result
  | some v => exact result

/-- What the step of a fold returns for the value so far and an element. -/
def stepOption (call : List Value → Result) (acc x : Value) : Result :=
  opened (.ok acc) (.ok .absent) fun a => opened (.ok x) (.ok .absent) fun v => call [a, v]

theorem foldStep_finishes {acc : Var} (hf : f.id < acc.id) (hacc : acc.id < x.id) (hx : x.id < k) :
    Draws k (applyAll (ref f span) [ref acc span, ref x span] span) fun body _ =>
      ∀ env g call a w, Dict.lookup? f env = some g → (∀ args, Returns g args (call args)) →
        Returns (.closure [acc, x] body env) [a, w] (stepOption call a w) := by
  refine .bind (.freshMany "x" 2) fun ys i _ hys => ?_
  obtain ⟨length, nodup, bounds⟩ := hys
  obtain ⟨y, z, rfl⟩ := List.length_eq_two.mp length
  have hy : k ≤ y.id := (bounds y List.mem_cons_self).1
  have hz : k ≤ z.id := (bounds z (List.mem_cons_of_mem _ List.mem_cons_self)).1
  have distinct : y ≠ z := by simpa using nodup
  let called := apply (ref f span) (refs [y, z] span) span
  change Draws i (bind z (ref x span) called span >>= fun body => bind y (ref acc span) body span) _
  refine .bind bind_opens fun inner _ _ opens => ?_
  refine bind_opens.imp fun out _ _ opens' env g call a w found calls => .closure rfl ?_
  -- the value so far is looked at first, then the element, and only then comes the call
  refine opens' _ _ _ (.var (by simp [extend, ne_of_id_lt hacc])) fun v => ?_
  have apart : x ≠ y := ne_of_id_lt (Nat.lt_of_lt_of_le hx hy)
  refine opens _ _ _ (.var (by simp [extend, apart])) fun u => ?_
  refine .app (.var ?_) (.cons (.var ?_) (.cons (.var ?_) .nil)) (calls [v, u])
  · rw [Dict.lookup?_insertEntry, if_neg (ne_of_id_lt (by omega)), Dict.lookup?_insertEntry,
      if_neg (ne_of_id_lt (by omega)), lookup?_extend_of_notMem, found]
    simp [ne_of_id_lt hf, ne_of_id_lt (Nat.lt_trans hf hacc)]
  · simp [distinct]
  · simp

theorem testOption_eq (call : List Value → Result) (o : Option Value) : testOption call o =
    opened (onOption call o) (.error (.raised .noValue)) .ok >>= Value.asBool := by
  rw [testOption, opened]
  cases onOption call o with
  | error h => rfl
  | ok v =>
    change (v.asOption >>= _) = (v.asOption >>= _) >>= _
    cases v.asOption with
    | error h => rfl
    | ok o => cases o <;> rfl

end Callbacks

section Values

variable {call : List Value → Result} {step : Value}

theorem mapValues_options {f : Option Value → Result}
    (steps : ∀ o, Returns step [.ofOption o] (f o)) (os : List (Option Value)) :
    Settles (fun m => mapValues (Eval.apply m) step (os.map .ofOption)) (os.mapM f) := by
  induction os with
  | nil => exact .const _
  | cons o os ih =>
    rw [List.mapM_cons]
    exact .andThen (steps o) fun w => .andThen ih fun ws => .const _

theorem filterAuxM_eq {α : Type} (p : α → Except Halt Bool) (as kept : List α) :
    as.filterAuxM p kept = do return (← as.filterAuxM p []) ++ kept := by
  induction as generalizing kept with
  | nil => rfl
  | cons a as ih =>
    rw [List.filterAuxM, List.filterAuxM]
    cases p a with
    | error h => rfl
    | ok b =>
      change as.filterAuxM p _ = (as.filterAuxM p _ >>= _)
      rw [ih, ih (cond b [a] [])]
      cases as.filterAuxM p [] with
      | error h => rfl
      | ok kept' => cases b <;> simp

theorem filterM_cons {α : Type} (p : α → Except Halt Bool) (a : α) (as : List α) :
    (a :: as).filterM p =
      p a >>= fun b => as.filterM p >>= fun kept => .ok (if b then a :: kept else kept) := by
  rw [List.filterM, List.filterM, List.filterAuxM]
  cases p a with
  | error h => rfl
  | ok b =>
    change (as.filterAuxM p (cond b [a] []) >>= fun kept => .ok kept.reverse) = _
    rw [filterAuxM_eq]
    cases as.filterAuxM p [] with
    | error h => rfl
    | ok kept =>
      cases b with
      | false =>
        change Except.ok (kept ++ []).reverse = Except.ok kept.reverse
        rw [List.append_nil]
      | true =>
        change Except.ok (kept ++ [a]).reverse = Except.ok (a :: kept.reverse)
        rw [List.reverse_concat]

theorem filterValues_options {f : Option Value → Result}
    (steps : ∀ o, Returns step [.ofOption o] (f o)) (os : List (Option Value)) :
    Settles (fun m => filterValues (Eval.apply m) step (os.map .ofOption))
      (do return (← os.filterM fun o => f o >>= Value.asBool).map .ofOption) := by
  induction os with
  | nil => exact .const _
  | cons o os ih =>
    rw [filterM_cons]
    simp only [bind_assoc]
    refine .andThen (steps o) fun w => ?_
    cases w with
    | bool b =>
      cases b with
      | false => exact ih
      | true =>
        have more := ih.map (Value.ofOption o :: ·)
        rwa [bind_assoc] at more
    | _ => exact .const _

/-- Once absent, a fold stays so. -/
theorem foldValues_none (steps : ∀ a w, Returns step [a, w] (stepOption call a w))
    (os : List (Option Value)) :
    Settles (fun m => foldValues (Eval.apply m) step .absent (os.map .ofOption)) (.ok .absent) := by
  have absent (o : Option Value) : Returns step [.absent, .ofOption o] (.ok .absent) := by
    have first := steps (.ofOption none) (.ofOption o)
    rwa [stepOption, opened_ofOption] at first
  induction os with
  | nil => exact .const _
  | cons o os ih => exact .bind (absent o) ih

theorem foldValues_options (steps : ∀ a w, Returns step [a, w] (stepOption call a w))
    (a : Value) (os : List (Option Value)) :
    Settles (fun m => foldValues (Eval.apply m) step a (os.map .ofOption))
      (foldOptions call a os) := by
  induction os generalizing a with
  | nil => exact .const _
  | cons o os ih =>
    have first := steps a (.ofOption o)
    rw [foldOptions]
    cases option : a.asOption with
    | error h =>
      rw [stepOption, opened_of_error option] at first
      exact .bind_error first
    | ok a' =>
      rw [stepOption, opened_of_asOption option] at first
      simp only [opened_ofOption] at first
      cases a' with
      | none => exact .bind first (foldValues_none steps os)
      | some a' =>
        cases o with
        | none => exact .bind first (foldValues_none steps os)
        | some v => exact .andThen first ih

end Values

section Operators

variable {f xs : Expr Mark} {F : Value} {call : List Value → Result}
  {os : List (Option Value)} {r : Result}

/-- The expression has the value wherever the variables numbered below `n` are as in `env`. -/
def HasValue (n : Nat) (env : Vars) (e : Expr Mark) (v : Value) : Prop :=
  ∀ env', AgreeBelow n env env' → Finishes env' e (.ok v)

theorem hasValue_ref {v : Value} (hx : x.id < n) (found : Dict.lookup? x env = some v) :
    HasValue n env (ref x span) v := by
  intro env' agree
  exact .var (by rw [agree x hx, found])

theorem bindFresh_inspects {g : Var → Supply (Expr Mark)} {R : Var → Expr Mark → Prop}
    (hg : ∀ x m, x.id = k → m = k + 1 → Draws m (g x) fun body _ => R x body) :
    Draws k (bindFresh arg g span) fun out _ => ∃ x body y, x.id = k ∧ R x body ∧
      Inspects y arg (nothing span) x body out := by
  refine .bind (.fresh "x") fun x m _ hx => .bind (hg x m hx.1 hx.2) fun body _ _ hbody => ?_
  refine bind_finishes.imp fun out _ _ hout => ?_
  obtain ⟨y, inspects⟩ := hout
  exact ⟨x, body, y, hx.1, hbody, inspects⟩

/-- The expression has the result where the variables hold the function and the list. -/
def Given (n : Nat) (env : Vars) (F l : Value) (r : Result) (f xs : Var) (e : Expr Mark) : Prop :=
  ∀ env', AgreeBelow n env env' → Dict.lookup? f env' = some F → Dict.lookup? xs env' = some l →
    Finishes env' e r

/-- Under binds for a function and a list that are present, `g` is given variables that hold
them. -/
theorem bindBoth_finishes {g : Var → Var → Supply (Expr Mark)} {l : Value}
    (hf : HasValue n env f F.present) (hxs : HasValue n env xs l.present)
    (hg : ∀ f xs m, f.id < xs.id → xs.id < m →
      Draws m (g f xs) fun body _ => Given n env F l r f xs body) :
    Draws n (bindFresh f (fun f => bindFresh xs (fun xs => g f xs) span) span) fun out _ =>
      Finishes env out r := by
  have within (y : Var) (m : Nat) (hy : y.id = n) (hm : m = n + 1) :
      Draws m (bindFresh xs (fun xs => g y xs) span) fun out _ => ∃ z body u, z.id = n + 1 ∧
        Given n env F l r y z body ∧ Inspects u xs (nothing span) z body out := by
    subst hm
    exact bindFresh_inspects fun z j hz hj => hg y z j (by omega) (by omega)
  refine (bindFresh_inspects within).imp fun out _ _ hout => ?_
  obtain ⟨y, inner, _, hy, ⟨z, body, _, hz, given, inspects⟩, inspects'⟩ := hout
  have agree : AgreeBelow n env (Dict.insertEntry y F env) := .insert (by omega) F
  have inside := agree.trans (.insert (by omega) l : AgreeBelow n _ (Dict.insertEntry z l _))
    (Nat.le_refl n)
  have ne : y ≠ z := ne_of_id_lt (by omega)
  have hbody := given _ inside (by simp [ne]) (by simp)
  exact inspects'.present env F r (hf env (.refl n env))
    (inspects.present _ l r (hxs _ agree) hbody)

/-- A list that holds the options. -/
def listOf (os : List (Option Value)) : Value := .array (os.map .ofOption)

/-- The wrapped call of an operator on a function of one element and a list. -/
theorem wrapped_finishes {α : Type} {o : Op} {l : Var} {v : Value} {r : Except Halt α}
    {h : α → Value} (list : Dict.lookup? l env = some v)
    (returns : Returns (.op o) [.closure [x] body env, v] (do return h (← r))) :
    Finishes env (wrap (apply (.op o (.erased span)) [lambda [x] [.any] body span, ref l span] span)
      span) (do return (h (← r)).present) := by
  have called : Finishes env
      (apply (.op o (.erased span)) [lambda [x] [.any] body span, ref l span] span)
      (do return h (← r)) := .app .op (.cons .lam (.cons (.var list) .nil)) returns
  have wrapped := called.map Value.present
  rw [bind_assoc] at wrapped
  exact .of_succ wrapped

variable (hf : HasValue n env f F.present) (hxs : HasValue n env xs (listOf os).present)
  (calls : ∀ args, Returns F args (call args))

include hf hxs calls

theorem map_finishes : Draws n (map f xs span) fun out _ =>
    Finishes env out (do return (Value.array (← os.mapM (onOption call))).present) := by
  refine bindBoth_finishes hf hxs fun g l m lt lt' => ?_
  refine .bind (.fresh "x") fun x _ _ hx => ?_
  refine .bind (onElement_finishes (by omega) (by omega)) fun body _ _ hbody => .pure ?_
  intro env' _ function list
  have steps (o : Option Value) :
      Returns (.closure [x] body env') [.ofOption o] (onOption call o) :=
    .closure rfl (hbody env' F call o function calls)
  exact wrapped_finishes list (.op ((mapValues_options steps os).map Value.array))

theorem filter_finishes : Draws n (filter f xs span) fun out _ => Finishes env out
    (do return (listOf (← os.filterM (testOption call))).present) := by
  refine bindBoth_finishes hf hxs fun g l m lt lt' => ?_
  refine .bind (.fresh "x") fun x _ _ hx => ?_
  refine .bind (onElement_finishes (by omega) (by omega)) fun test _ _ htest => ?_
  refine .bind unwrap_opens fun body _ _ opens => .pure ?_
  intro env' _ function list
  have steps (o : Option Value) : Returns (.closure [x] body env') [.ofOption o]
      (opened (onOption call o) (.error (.raised .noValue)) .ok) :=
    .closure rfl (opens _ _ (htest env' F call o function calls))
  have kept := (filterValues_options steps os).map Value.array
  rw [bind_assoc] at kept
  simp only [← testOption_eq] at kept
  exact wrapped_finishes list (.op kept)

/-- A fold, whatever its operator does with the step that is made from the function. -/
theorem foldWith_finishes {o : Op} {init : Expr Mark} {a : Value} (hinit : HasValue n env init a)
    (folds : ∀ step, (∀ a w, Returns step [a, w] (stepOption call a w)) →
      Returns (.op o) [step, a, listOf os] r) :
    Draws n (foldWith o f init xs span) fun out _ => Finishes env out r := by
  refine bindBoth_finishes hf hxs fun g l m lt lt' => ?_
  refine .bind (.fresh "acc") fun acc _ _ hacc => .bind (.fresh "x") fun x _ _ hx => ?_
  refine .bind (foldStep_finishes (by omega) (by omega) (by omega)) fun body _ _ hbody => .pure ?_
  intro env' agree function list
  have steps (a w : Value) : Returns (.closure [acc, x] body env') [a, w] (stepOption call a w) :=
    hbody env' F call a w function calls
  exact .app .op (.cons .lam (.cons (hinit env' agree) (.cons (.var list) .nil))) (folds _ steps)

omit hf hxs calls

theorem returns_fold {step a : Value}
    (steps : ∀ a w, Returns step [a, w] (stepOption call a w)) :
    Returns (.op .fold) [step, a, listOf os] (foldOptions call a os) :=
  .op (foldValues_options steps a os)

theorem returns_reduce {step a : Value}
    (steps : ∀ a w, Returns step [a, w] (stepOption call a w)) :
    Returns (.op .reduce) [step, a, listOf os] (reduceOptions call a os) := by
  cases os with
  | nil => exact .op (.const _)
  | cons o os => exact .op (foldValues_options steps (.ofOption o) os)

end Operators

section Calls

variable {ctx : Ctx} {es outs : List (Expr Mark)} {o : Op} {i m : Mark} {r : Result}

/-- The variable is lifted to one numbered below `n`, which holds the option. -/
def Ctx.HoldsOption (ctx : Ctx) (n : Nat) (env : Vars) (v : Var) (o : Option Value) : Prop :=
  ∃ target, ctx.get? v = some ⟨target, .option⟩ ∧ target.id < n ∧
    Dict.lookup? target env = some (.ofOption o)

/-- The expression can be lifted, and its lifted form has the result. -/
def LiftFinishes (ctx : Ctx) (n : Nat) (env : Vars) (e : Expr Mark) (r : Result) : Prop :=
  ∃ out m, e.lift ctx n = (.ok out, m) ∧ Finishes env out r

theorem Ctx.HoldsOption.lift_var {v : Var} {o : Option Value} (h : ctx.HoldsOption n env v o)
    (m : Mark) : ∃ out, Expr.lift ctx (.var v m) = pure out ∧ HasValue n env out (.ofOption o) := by
  obtain ⟨target, found, below, value⟩ := h
  refine ⟨ref target m.span, ?_, hasValue_ref below value⟩
  have lookup : ctx.lookup v m.span = pure ⟨target, .option⟩ := by rw [Ctx.lookup, found]
  rw [Expr.lift, lookup, pure_bind]

theorem liftAll_eq_pure (h : List.Forall₂ (fun e out => Expr.lift ctx e = pure out) es outs) :
    Expr.liftAll ctx es = pure outs := by
  induction h with
  | nil => rfl
  | cons head _ ih => rw [Expr.liftAll, head, pure_bind, ih, pure_bind]

theorem listCall_finishes {c : Supply (Expr Mark)} (higher : o.isHigherOrder = true)
    (length : es.length = o.arity)
    (lifted : List.Forall₂ (fun e out => Expr.lift ctx e = pure out) es outs)
    (called : listCall o outs m.span = liftM c)
    (finishes : Draws n c fun out _ => Finishes env out r) :
    LiftFinishes ctx n env (.app (.op o i) es m) r := by
  refine ⟨(c n).1, (c n).2, ?_, finishes.2⟩
  rw [lift_listCall higher length, liftAll_eq_pure lifted, pure_bind, called]
  rfl

/-- The lifted list operators on a function and a list of options that are present. `map` keeps the
absent elements, and the function is called for the others. `filter` keeps the elements that pass,
and raises an exception at the first one that is absent or has no answer. `fold` and `reduce` are
absent as soon as an element or the value so far is. All go from left to right. -/
theorem lists_of_options (ctx : Ctx) (n : Nat) (env : Vars) (f xs : Var) (F : Value)
    (os : List (Option Value)) (function : ctx.HoldsOption n env f (some F))
    (list : ctx.HoldsOption n env xs (some (listOf os))) (i j k l m : Mark) :
    ∃ call : List Value → Result, (∀ args, Returns F args (call args)) ∧
      LiftFinishes ctx n env (.app (.op .map i) [.var f j, .var xs k] m)
        (do return (Value.array (← os.mapM (onOption call))).present) ∧
      LiftFinishes ctx n env (.app (.op .filter i) [.var f j, .var xs k] m)
        (do return (listOf (← os.filterM (testOption call))).present) ∧
      ∀ init o, ctx.HoldsOption n env init o →
        LiftFinishes ctx n env (.app (.op .fold i) [.var f j, .var init l, .var xs k] m)
          (foldOptions call (.ofOption o) os) ∧
        LiftFinishes ctx n env (.app (.op .reduce i) [.var f j, .var init l, .var xs k] m)
          (reduceOptions call (.ofOption o) os) := by
  obtain ⟨f', liftF, hf⟩ := function.lift_var j
  obtain ⟨xs', liftXs, hxs⟩ := list.lift_var k
  have two : List.Forall₂ (fun e out => Expr.lift ctx e = pure out)
      [.var f j, .var xs k] [f', xs'] := .cons liftF (.cons liftXs .nil)
  choose call calls using exists_returns F
  refine ⟨call, calls, ?_, ?_, fun init o initial => ?_⟩
  · exact listCall_finishes rfl rfl two rfl (map_finishes hf hxs calls)
  · exact listCall_finishes rfl rfl two rfl (filter_finishes hf hxs calls)
  · obtain ⟨init', liftInit, hinit⟩ := initial.lift_var l
    have three : List.Forall₂ (fun e out => Expr.lift ctx e = pure out)
        [.var f j, .var init l, .var xs k] [f', init', xs'] :=
      .cons liftF (.cons liftInit (.cons liftXs .nil))
    constructor
    · exact listCall_finishes rfl rfl three rfl
        (foldWith_finishes hf hxs calls hinit fun _ => returns_fold)
    · exact listCall_finishes rfl rfl three rfl
        (foldWith_finishes hf hxs calls hinit fun _ => returns_reduce)

end Calls

section Example

private def binary (o : Op) (a b : Expr Mark) : Expr Mark :=
  wrap (apply (.op o .blank) [a, b] .synthetic) .synthetic

/-- `fun n => Present (n > 0)` -/
def isPositive : Value :=
  .closure [⟨0, "n"⟩]
    (binary (.gt .int) (ref ⟨0, "n"⟩ .synthetic) (.lit (.int 0) .blank)) []

/-- `fun a b => Present (a + b)` -/
def plus : Value :=
  .closure [⟨0, "a"⟩, ⟨1, "b"⟩]
    (binary (.add .int) (ref ⟨0, "a"⟩ .synthetic) (ref ⟨1, "b"⟩ .synthetic)) []

private theorem isPositive_returns (n : Int64) :
    Returns isPositive [.int n] (.ok (Value.bool (n > 0)).present) := by
  have compared : Returns (.op (.gt .int)) [.int n, .int 0] (.ok (.bool (n > 0))) := .op (.const _)
  refine .closure rfl (.inject (.app .op (.cons (.var ?_) (.cons .lit .nil)) compared))
  simp [extend]

private theorem plus_returns {a b c : Int64}
    (sum : exactly .int (a.toInt + b.toInt) = .ok (.int c)) :
    Returns plus [.int a, .int b] (.ok (Value.int c).present) := by
  have added : Returns (.op (.add .int)) [.int a, .int b] (.ok (.int c)) := by
    rw [← sum]
    exact .op (.const _)
  refine .closure rfl (.inject (.app .op (.cons (.var ?_) (.cons (.var ?_) .nil)) added))
  · simp [extend]
  · simp [extend]

def listCtx : Ctx :=
  ((Dict.insert ∅ ⟨0, "f"⟩ ⟨⟨3, "f"⟩, .option⟩).insert ⟨1, "xs"⟩ ⟨⟨4, "xs"⟩, .option⟩).insert
    ⟨2, "init"⟩ ⟨⟨5, "init"⟩, .option⟩

def listVars (f : Value) (init : Option Value) (os : List (Option Value)) : Vars :=
  [(⟨3, "f"⟩, f.present), (⟨4, "xs"⟩, (listOf os).present), (⟨5, "init"⟩, .ofOption init)]

private theorem listVars_hold (f : Value) (init : Option Value) (os : List (Option Value)) :
    listCtx.HoldsOption 6 (listVars f init os) ⟨0, "f"⟩ (some f) ∧
    listCtx.HoldsOption 6 (listVars f init os) ⟨1, "xs"⟩ (some (listOf os)) ∧
    listCtx.HoldsOption 6 (listVars f init os) ⟨2, "init"⟩ init := by
  refine ⟨⟨⟨3, "f"⟩, rfl, by decide, ?_⟩, ⟨⟨4, "xs"⟩, rfl, by decide, ?_⟩,
    ⟨⟨5, "init"⟩, rfl, by decide, ?_⟩⟩
  all_goals simp [listVars, Dict.lookup?, Value.ofOption]

/-- An absent element stays in its place under `map` and is an error for `filter`. A sum with an
absent element is absent, and `reduce` does without an initial value. -/
theorem listVars_of_options :
    let m : Mark := .blank
    let f : Expr Mark := .var ⟨0, "f"⟩ m
    let xs : Expr Mark := .var ⟨1, "xs"⟩ m
    let init : Expr Mark := .var ⟨2, "init"⟩ m
    let five : Option Value := some (.int 5)
    let minus : Option Value := some (.int (-1))
    LiftFinishes listCtx 6 (listVars isPositive none [five, none, minus])
      (.app (.op .map m) [f, xs] m)
      (.ok (listOf [some (.bool true), none, some (.bool false)]).present) ∧
    LiftFinishes listCtx 6 (listVars isPositive none [five, minus, none])
      (.app (.op .filter m) [f, xs] m) (.error (.raised .noValue)) ∧
    LiftFinishes listCtx 6 (listVars plus five [minus, none])
      (.app (.op .fold m) [f, init, xs] m) (.ok .absent) ∧
    LiftFinishes listCtx 6 (listVars plus none [five, minus])
      (.app (.op .reduce m) [f, init, xs] m) (.ok (Value.int 4).present) := by
  intro m f xs init five minus
  have lists (g : Value) (o : Option Value) (os : List (Option Value)) :=
    lists_of_options listCtx 6 (listVars g o os) _ _ g os (listVars_hold g o os).1
      (listVars_hold g o os).2.1 m m m m m
  refine ⟨?_, ?_, ?_, ?_⟩
  · obtain ⟨call, calls, map, _⟩ := lists isPositive none [five, none, minus]
    have first : onOption call five = _ := (calls _).unique (isPositive_returns 5)
    have last : onOption call minus = _ := (calls _).unique (isPositive_returns (-1))
    rw [List.mapM_cons, List.mapM_cons, List.mapM_cons, first, last] at map
    exact map
  · obtain ⟨call, calls, _, filter, _⟩ := lists isPositive none [five, minus, none]
    have first : onOption call five = _ := (calls _).unique (isPositive_returns 5)
    have second : onOption call minus = _ := (calls _).unique (isPositive_returns (-1))
    rw [filterM_cons, filterM_cons, filterM_cons, testOption, testOption, first, second] at filter
    exact filter
  · obtain ⟨call, calls, _, _, folds⟩ := lists plus five [minus, none]
    have fold := (folds ⟨2, "init"⟩ five (listVars_hold _ _ _).2.2).1
    have first : call [.int 5, .int (-1)] = _ := (calls _).unique (plus_returns (c := 4) rfl)
    rw [foldOptions, Value.asOption_ofOption] at fold
    change LiftFinishes _ _ _ _ (call [.int 5, .int (-1)] >>= fun acc => _) at fold
    rw [first] at fold
    exact fold
  · obtain ⟨call, calls, _, _, folds⟩ := lists plus none [five, minus]
    have reduce := (folds ⟨2, "init"⟩ none (listVars_hold _ _ _).2.2).2
    have first : call [.int 5, .int (-1)] = _ := (calls _).unique (plus_returns (c := 4) rfl)
    rw [reduceOptions, foldOptions, Value.asOption_ofOption] at reduce
    change LiftFinishes _ _ _ _ (call [.int 5, .int (-1)] >>= fun acc => _) at reduce
    rw [first] at reduce
    exact reduce

end Example

end Lift

end Ordinance
