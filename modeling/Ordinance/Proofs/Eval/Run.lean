import Ordinance.Eval.Basic
import Ordinance.Proofs.Dict

namespace Ordinance.Eval

/-- From some amount of fuel on, the result is always `a`. -/
def Settles {α : Type} (f : Nat → α) (a : α) : Prop := ∃ k, ∀ m, k ≤ m → f m = a

namespace Settles

variable {α β : Type} {a : α}

theorem const (a : α) : Settles (fun _ => a) a := ⟨0, fun _ _ => rfl⟩

theorem unique {f : Nat → α} {b : α} (ha : Settles f a) (hb : Settles f b) : a = b := by
  obtain ⟨k, ha⟩ := ha
  obtain ⟨l, hb⟩ := hb
  rw [← ha (max k l) (by omega), hb (max k l) (by omega)]

/-- One step more does not matter. -/
theorem succ_iff {f : Nat → α} : Settles (fun m => f (m + 1)) a ↔ Settles f a := by
  constructor
  · rintro ⟨k, h⟩
    refine ⟨k + 1, fun m le => ?_⟩
    obtain ⟨m, rfl⟩ : ∃ i, m = i + 1 := ⟨m - 1, by omega⟩
    exact h m (by omega)
  · rintro ⟨k, h⟩
    exact ⟨k, fun m le => h (m + 1) (by omega)⟩

theorem of_succ {f : Nat → α} (h : Settles (fun m => f (m + 1)) a) : Settles f a := succ_iff.mp h

/-- What follows a computation that settles sees its result. -/
theorem after_iff {f : Nat → α} {g : Nat → α → β} {b : β} (hf : Settles f a) :
    Settles (fun m => g m (f m)) b ↔ Settles (fun m => g m a) b := by
  obtain ⟨k, hf⟩ := hf
  have same (l m : Nat) (le : max k l ≤ m) : g m (f m) = g m a := by rw [hf m (by omega)]
  constructor
  · rintro ⟨l, h⟩
    exact ⟨max k l, fun m le => (same l m le).symm.trans (h m (by omega))⟩
  · rintro ⟨l, h⟩
    exact ⟨max k l, fun m le => (same l m le).trans (h m (by omega))⟩

theorem after {f : Nat → α} {g : Nat → α → β} {b : β} (hf : Settles f a)
    (hg : Settles (fun m => g m a) b) : Settles (fun m => g m (f m)) b := (after_iff hf).mpr hg

variable {f : Nat → Except Halt α} {g : Nat → α → Except Halt β}

theorem bind_iff {r : Except Halt β} (hf : Settles f (.ok a)) :
    Settles (fun m => f m >>= g m) r ↔ Settles (fun m => g m a) r :=
  after_iff (g := fun m x => x >>= g m) hf

theorem bind {r : Except Halt β} (hf : Settles f (.ok a)) (hg : Settles (fun m => g m a) r) :
    Settles (fun m => f m >>= g m) r := (bind_iff hf).mpr hg

theorem bind_error {h : Halt} (hf : Settles f (.error h)) :
    Settles (fun m => f m >>= g m) (.error h) :=
  .after (g := fun m x => x >>= g m) hf (.const _)

theorem andThen {r : Except Halt α} {g' : α → Except Halt β} (hf : Settles f r)
    (hg : ∀ a, Settles (fun m => g m a) (g' a)) : Settles (fun m => f m >>= g m) (r >>= g') := by
  cases r with
  | error h => exact .bind_error hf
  | ok a => exact .bind hf (hg a)

theorem map {r : Except Halt α} (hf : Settles f r) (h : α → β) :
    Settles (fun m => do return h (← f m)) (do return h (← r)) := .andThen hf fun _ => .const _

end Settles

/-- The expression has the result, given enough fuel. -/
abbrev Finishes (env : Vars) (e : Expr Mark) (r : Result) : Prop := Settles (eval · env e) r

abbrev FinishesAll (env : Vars) (es : List (Expr Mark)) (r : Except Halt (List Value)) : Prop :=
  Settles (fun m => runAll (eval m env) es) r

/-- The function returns the result for the arguments, given enough fuel. -/
abbrev Returns (f : Value) (args : List Value) (r : Result) : Prop := Settles (apply · f args) r

section Lists

variable {env : Vars} {e : Expr Mark} {es : List (Expr Mark)} {v : Value} {vs : List Value}
  {h : Halt}

theorem FinishesAll.nil : FinishesAll env [] (.ok []) := .const _

theorem FinishesAll.cons (he : Finishes env e (.ok v)) (hes : FinishesAll env es (.ok vs)) :
    FinishesAll env (e :: es) (.ok (v :: vs)) :=
  .bind he (.bind hes (.const _))

theorem FinishesAll.error_head (he : Finishes env e (.error h)) :
    FinishesAll env (e :: es) (.error h) :=
  .bind_error he

theorem FinishesAll.error_tail (he : Finishes env e (.ok v)) (hes : FinishesAll env es (.error h)) :
    FinishesAll env (e :: es) (.error h) :=
  .bind he (.bind_error hes)

theorem finishesAll_of_forall₂ (hs : List.Forall₂ (fun e v => Finishes env e (.ok v)) es vs) :
    FinishesAll env es (.ok vs) := by
  induction hs with
  | nil => exact .nil
  | cons head _ ih => exact .cons head ih

theorem finishesNamed {names : List String}
    (hs : List.Forall₂ (fun e v => Finishes env e (.ok v)) es vs) :
    Settles (fun m => runNamed (eval m env) (names.zip es)) (.ok (names.zip vs)) := by
  induction hs generalizing names with
  | nil =>
    rw [List.zip_nil_right, List.zip_nil_right]
    exact .const _
  | cons head _ ih =>
    cases names with
    | nil => exact .const _
    | cons name names => exact .bind head (.bind ih (.const _))

end Lists

namespace Finishes

variable {env : Vars} {e f arg cond yes no body handler : Expr Mark} {es args : List (Expr Mark)}
  {m : Mark} {v g : Value} {vs : List Value} {r : Result} {h : Halt}

theorem var {x : Var} (found : Dict.lookup? x env = some v) : Finishes env (.var x m) (.ok v) := by
  refine .of_succ ?_
  change Settles (fun _ => stuckUnless (Dict.lookup? x env)) (.ok v)
  rw [found]
  exact .const _

theorem lit {l : Literal} : Finishes env (.lit l m) (literal l) := .of_succ (.const _)

theorem raise {x : Exn} : Finishes env (.raise x m) (.error (.raised x)) := .of_succ (.const _)

theorem op {o : Op} : Finishes env (.op o m) (.ok (.op o)) := .of_succ (.const _)

theorem lam {params : List Var} {tys : List Ty} :
    Finishes env (.lam params tys body m) (.ok (.closure params body env)) := .of_succ (.const _)

theorem tuple (hes : FinishesAll env es (.ok vs)) : Finishes env (.tuple es m) (.ok (.tuple vs)) :=
  .of_succ (.bind hes (.const _))

theorem array (hes : FinishesAll env es (.ok vs)) : Finishes env (.array es m) (.ok (.array vs)) :=
  .of_succ (.bind hes (.const _))

theorem array_error (hes : FinishesAll env es (.error h)) : Finishes env (.array es m) (.error h) :=
  .of_succ (.bind_error hes)

theorem record {struct : String} {names : List String}
    (hes : List.Forall₂ (fun e v => Finishes env e (.ok v)) es vs) :
    Finishes env (.record struct (names.zip es) m) (.ok (.record struct (names.zip vs))) :=
  .of_succ (.bind (finishesNamed hes) (.const _))

theorem component {index size : Nat} (he : Finishes env e (.ok (.tuple vs)))
    (found : vs[index]? = some v) : Finishes env (.component e index size m) (.ok v) := by
  refine .of_succ (.bind he ?_)
  change Settles (fun _ => stuckUnless vs[index]?) (.ok v)
  rw [found]
  exact .const _

theorem field {struct struct' name : String} {fields : List (String × Value)}
    (he : Finishes env e (.ok (.record struct' fields))) (found : fields.lookup name = some v) :
    Finishes env (.field e struct name m) (.ok v) := by
  refine .of_succ (.bind he ?_)
  change Settles (fun _ => stuckUnless (fields.lookup name)) (.ok v)
  rw [found]
  exact .const _

theorem inject {enum ctor : String} (he : Finishes env e (.ok v)) :
    Finishes env (.inject enum ctor e m) (.ok (.inject enum ctor v)) :=
  .of_succ (.bind he (.const _))

theorem inject_error {enum ctor : String} (he : Finishes env e (.error h)) :
    Finishes env (.inject enum ctor e m) (.error h) :=
  .of_succ (.bind_error he)

theorem switch_iff {enum enum' ctor : String} {cases : List (String × Expr Mark)} {c : Expr Mark}
    (he : Finishes env e (.ok (.inject enum' ctor v))) (found : cases.lookup ctor = some c)
    (hc : Finishes env c (.ok g)) :
    Finishes env (.switch e enum cases m) r ↔ Returns g [v] r := by
  refine Settles.succ_iff.symm.trans ((Settles.bind_iff he).trans ?_)
  simp only [found]
  exact Settles.bind_iff hc

theorem switch {enum enum' ctor : String} {cases : List (String × Expr Mark)} {c : Expr Mark}
    (he : Finishes env e (.ok (.inject enum' ctor v))) (found : cases.lookup ctor = some c)
    (hc : Finishes env c (.ok g)) (hg : Returns g [v] r) :
    Finishes env (.switch e enum cases m) r := (switch_iff he found hc).mpr hg

theorem switch_error {enum : String} {cases : List (String × Expr Mark)}
    (he : Finishes env e (.error h)) : Finishes env (.switch e enum cases m) (.error h) :=
  .of_succ (.bind_error he)

theorem switch_stuck {enum : String} {cases : List (String × Expr Mark)}
    (he : Finishes env e (.ok v))
    (none : ∀ enum' ctor w, v = .inject enum' ctor w → cases.lookup ctor = none) :
    Finishes env (.switch e enum cases m) (.error .stuck) := by
  refine .of_succ (.bind he ?_)
  cases v with
  | inject enum' ctor w =>
    simp only [none enum' ctor w rfl]
    exact .const _
  | _ => exact .const _

theorem app (hf : Finishes env f (.ok g)) (hargs : FinishesAll env args (.ok vs))
    (hg : Returns g vs r) : Finishes env (.app f args m) r :=
  .of_succ (.bind hf (.bind hargs hg))

theorem app_error (hf : Finishes env f (.ok g)) (hargs : FinishesAll env args (.error h)) :
    Finishes env (.app f args m) (.error h) :=
  .of_succ (.bind hf (.bind_error hargs))

theorem ite {b : Bool} (hcond : Finishes env cond (.ok (.bool b)))
    (hr : Finishes env (if b then yes else no) r) : Finishes env (.ite cond yes no m) r := by
  cases b
  · exact .of_succ (.bind hcond hr)
  · exact .of_succ (.bind hcond hr)

theorem assert {b : Bool} (he : Finishes env e (.ok (.bool b))) :
    Finishes env (.assert e m) (if b then .ok .unit else .error (.raised .assertionFailed)) := by
  cases b
  · exact .of_succ (.bind he (.const _))
  · exact .of_succ (.bind he (.const _))

section Rescue

variable {x y : Exn}

theorem rescue {r' : Result} (hbody : Finishes env body r')
    (hr : Settles (fun m => recover x (eval m env handler) r') r) :
    Finishes env (.rescue body x handler m) r :=
  .of_succ (.after (g := fun m => recover x (eval m env handler)) hbody hr)

theorem rescue_ok (hbody : Finishes env body (.ok v)) :
    Finishes env (.rescue body x handler m) (.ok v) := .rescue hbody (.const _)

theorem rescue_here (hbody : Finishes env body (.error (.raised x)))
    (hr : Finishes env handler r) : Finishes env (.rescue body x handler m) r := by
  refine .rescue hbody ?_
  simpa only [recover, if_pos] using hr

theorem rescue_other (hbody : Finishes env body (.error (.raised y))) (ne : y ≠ x) :
    Finishes env (.rescue body x handler m) (.error (.raised y)) := by
  refine .rescue hbody ?_
  simpa only [recover, if_neg ne] using .const _

end Rescue

end Finishes

section Calls

variable {env : Vars} {params : List Var} {body : Expr Mark} {args : List Value} {r : Result}

theorem Returns.closure_iff (count : params.length = args.length) :
    Returns (.closure params body env) args r ↔ Finishes (extend env (params.zip args)) body r := by
  refine Settles.succ_iff.symm.trans ?_
  change Settles (fun m => if params.length = args.length then
    eval m (extend env (params.zip args)) body else .error .stuck) r ↔ _
  simp only [if_pos count]

theorem Returns.closure (count : params.length = args.length)
    (hbody : Finishes (extend env (params.zip args)) body r) :
    Returns (.closure params body env) args r := (closure_iff count).mpr hbody

theorem Returns.op {o : Op} (h : Settles (fun m => applyOp equal (apply m) o args) r) :
    Returns (.op o) args r := .of_succ h

section Defaults

variable {os : List Value} {just cons : Value}

theorem Returns.resolve_one {o : Value} (found : os.filter (·.payload?.isSome) = [o]) :
    Returns (.op .resolveDefault) [.array os, just, cons] (.ok o) := by
  refine .op ⟨0, fun m _ => ?_⟩
  change choose (os.filter (·.payload?.isSome)) _ = _
  rw [found]
  rfl

theorem Returns.resolve_many {o o' : Value} {rest : List Value}
    (found : os.filter (·.payload?.isSome) = o :: o' :: rest) :
    Returns (.op .resolveDefault) [.array os, just, cons] (.error (.raised .conflict)) := by
  refine .op ⟨0, fun m _ => ?_⟩
  change choose (os.filter (·.payload?.isSome)) _ = _
  rw [found]
  rfl

/-- If no exception applies, the justification decides. -/
theorem Returns.resolve_none (found : os.filter (·.payload?.isSome) = [])
    (hr : Settles (fun m => apply m just [.unit] >>= fun v =>
      match v.payload? with
      | some (.bool true) => apply m cons [.unit]
      | some (.bool false) | none => .ok .absent
      | some _ => .error .stuck) r) :
    Returns (.op .resolveDefault) [.array os, just, cons] r := by
  refine .op ?_
  change Settles (fun m => choose (os.filter (·.payload?.isSome)) _) r
  rw [found]
  exact hr

end Defaults

theorem lookup?_extend_of_notMem {x : Var} {bs : List (Var × Value)} (h : x ∉ bs.map (·.1)) :
    Dict.lookup? x (extend env bs) = Dict.lookup? x env := by
  induction bs generalizing env with
  | nil => rfl
  | cons b bs ih =>
    obtain ⟨ne, rest⟩ : x ≠ b.1 ∧ x ∉ bs.map (·.1) := by simpa using h
    rw [extend, List.foldl_cons, ← extend, ih rest, Dict.lookup?_insertEntry, if_neg ne]

theorem lookup?_extend_of_mem {x : Var} {v : Value} {bs : List (Var × Value)}
    (nodup : (bs.map (·.1)).Nodup) (h : (x, v) ∈ bs) :
    Dict.lookup? x (extend env bs) = some v := by
  induction bs generalizing env with
  | nil => cases h
  | cons b bs ih =>
    obtain ⟨other, nodup⟩ := List.nodup_cons.mp nodup
    rw [extend, List.foldl_cons, ← extend]
    rcases List.mem_cons.mp h with rfl | h
    · rw [lookup?_extend_of_notMem other, Dict.lookup?_insertEntry, if_pos rfl]
    · exact ih nodup h

end Calls

end Ordinance.Eval
