import Ordinance.Proofs.Lift.Eval.Build

namespace Ordinance.Lift

open Eval

variable {P : Expr Mark → Prop} {n k : Nat} {env env₀ : Vars} {span : Span} {m : Mark}
  {run : Expr Mark → Result} {call : Value → List Value → Result} {e e' : Expr Mark}
  {es args : List (Expr Mark)}

section Exceptions

variable {body body' handler handler' : Expr Mark}

theorem rescueEmpty_tracks (le : n ≤ k) (hbody : Tracks P n env (run body) body')
    (hhandler : Tracks P n env (run handler) handler') :
    Draws k (rescueEmpty body' handler' span) fun out _ =>
      Tracks P n env (evalStep run call env₀ (.rescue body .empty handler m)) out := by
  refine .bind (.fresh "x") fun x i le' hx => ?_
  refine inspect_finishes.imp fun out _ _ hout env₁ agree => ?_
  obtain ⟨y, fresh, inspects⟩ := hout
  have hbody := hbody env₁ agree
  change Follows P _ (recover .empty (run handler) (run body))
  generalize run body = r at hbody ⊢
  cases hbody with
  | value hw hbody =>
    exact .value hw (inspects.present env₁ _ _ hbody (.inject (.var (by simp))))
  | absent hbody =>
    have inner : AgreeBelow n env (Dict.insertEntry y .unit env₁) :=
      agree.trans (.insert (by omega) .unit) (Nat.le_refl n)
    exact (hhandler _ inner).imp fun r hr => inspects.absent env₁ r hbody hr
  | raised ne hbody =>
    rw [recover, if_neg ne]
    exact .raised ne (inspects.error env₁ _ hbody)
  | stuck => exact .stuck
  | exhausted => exact .exhausted

theorem rescue_tracks {x : Exn} (ne : x ≠ .empty) (hbody : Tracks P n env (run body) body')
    (hhandler : Tracks P n env (run handler) handler') :
    Tracks P n env (evalStep run call env₀ (.rescue body x handler m))
      (.rescue body' x handler' (.erased span)) := by
  intro env₁ agree
  have hbody := hbody env₁ agree
  change Follows P _ (recover x (run handler) (run body))
  generalize run body = r at hbody ⊢
  cases hbody with
  | value hw hbody => exact .value hw (.rescue_ok hbody)
  | absent hbody =>
    rw [recover, if_neg ne.symm]
    exact .absent (.rescue_ok hbody)
  | @raised y notEmpty hbody =>
    rw [recover]
    split
    next eq =>
      subst eq
      exact (hhandler env₁ agree).imp fun r hr => .rescue_here hbody hr
    next other => exact .raised notEmpty (.rescue_other hbody other)
  | stuck => exact .stuck
  | exhausted => exact .exhausted

theorem unwrap_finishes : Draws k (unwrap e' span) fun out _ =>
    ∃ x y, Inspects y e' (.raise .noValue (.erased span)) x (ref x span) out :=
  .bind (.fresh "x") fun x _ _ _ => inspect_finishes.imp fun _ _ _ ⟨y, _, h⟩ => ⟨x, y, h⟩

theorem force_tracks (he : Tracks P n env (run e) e') :
    Draws k (force e' span) fun out _ =>
      Tracks P n env (evalStep run call env₀ (.force e m)) out := by
  refine .bind unwrap_finishes fun out _ _ hout => .pure fun env₁ agree => ?_
  obtain ⟨x, y, inspects⟩ := hout
  have he := he env₁ agree
  change Follows P _ (recover .empty (.error (.raised .noValue)) (run e))
  generalize run e = r at he ⊢
  cases he with
  | value hw he =>
    exact .value hw (.inject (inspects.present env₁ _ _ he (.var (by simp))))
  | absent he => exact .raised nofun (.inject_error (inspects.absent env₁ _ he .raise))
  | raised ne he =>
    rw [recover, if_neg ne]
    exact .raised ne (.inject_error (inspects.error env₁ _ he))
  | stuck => exact .stuck
  | exhausted => exact .exhausted

end Exceptions

section Defaults

@[simp] theorem payload?_present (v : Value) : v.present.payload? = some v := by
  simp [Value.present, Value.payload?]

@[simp] theorem payload?_absent : Value.absent.payload? = none := by decide

/-- The lifted exceptions, which end as stated, give options: the values among them stand for those
that are found. -/
inductive Finds (P : Expr Mark → Prop) (ends : Except Halt (List Value) → Prop) :
    Except Halt (List Value) → Prop
  | values {vs os ws : List Value} : List.Forall₂ (StandsFor P) vs ws →
      os.filter (·.payload?.isSome) = ws.map .present → ends (.ok os) → Finds P ends (.ok vs)
  | raised {x : Exn} : x ≠ .empty → ends (.error (.raised x)) → Finds P ends (.error (.raised x))
  | stuck : Finds P ends (.error .stuck)
  | exhausted : Finds P ends (.error .exhausted)

theorem survivors_found (hes : List.Forall₂ (fun e arg => Tracks P n env (run e) arg) es args)
    {env₁ : Vars} (agree : AgreeBelow n env env₁) :
    Finds P (FinishesAll env₁ args) (survivors run es) := by
  induction hes with
  | nil => exact .values .nil rfl .nil
  | @cons e arg es args he _ ih =>
    have he := he env₁ agree
    rw [survivors]
    generalize run e = r at he ⊢
    generalize survivors run es = found at ih ⊢
    cases he with
    | value hw he =>
      cases ih with
      | values hvs eq hes => exact .values (.cons hw hvs) (by simp [eq]) (.cons he hes)
      | raised ne hes => exact .raised ne (.error_tail he hes)
      | stuck => exact .stuck
      | exhausted => exact .exhausted
    | absent he =>
      cases ih with
      | values hvs eq hes => exact .values hvs (by simpa using eq) (.cons he hes)
      | raised ne hes => exact .raised ne (.error_tail he hes)
      | stuck => exact .stuck
      | exhausted => exact .exhausted
    | @raised x ne he =>
      cases x with
      | empty => exact absurd rfl ne
      | _ => exact .raised ne (.error_head he)
    | stuck => exact .stuck
    | exhausted => exact .exhausted

variable {just just' cons cons' : Expr Mark}

/-- What a default does if no exception applies. -/
theorem otherwise_follows {os : List Value} {f g : Value} {rj rc : Result}
    (none : os.filter (·.payload?.isSome) = []) (hjust : Follows P (Returns f [.unit]) rj)
    (hcons : Follows P (Returns g [.unit]) rc) :
    Follows P (Returns (.op .resolveDefault) [.array os, f, g]) (rj >>= fun v =>
      match v with
      | .bool true => rc
      | .bool false => .error (.raised .empty)
      | _ => .error .stuck) := by
  cases hjust with
  | value hw hf =>
    cases hw with
    | bool b =>
      cases b with
      | false => exact .absent (.resolve_none none (.bind hf (.const _)))
      | true => exact hcons.imp fun r hr => .resolve_none none (.bind hf hr)
    | _ => exact .stuck
  | absent hf => exact .absent (.resolve_none none (.bind hf (.const _)))
  | raised ne hf => exact .raised ne (.resolve_none none (.bind_error hf))
  | stuck => exact .stuck
  | exhausted => exact .exhausted

theorem default_tracks (le : n ≤ k)
    (hes : List.Forall₂ (fun e arg => Tracks P n env (run e) arg) es args)
    (hjust : Tracks P n env (run just) just') (hcons : Tracks P n env (run cons) cons') :
    Draws k (default args just' cons' span) fun out _ =>
      Tracks P n env (evalStep run call env₀ (.default es just cons m)) out := by
  refine .bind (thunk_finishes just' span) fun f _ _ hf => ?_
  refine .bind (thunk_finishes cons' span) fun g _ _ hg => .pure fun env₁ agree => ?_
  obtain ⟨y, hy, rfl⟩ := hf
  obtain ⟨z, hz, rfl⟩ := hg
  have delayed {d d' : Expr Mark} (hd : Tracks P n env (run d) d') {v : Var} (hv : n ≤ v.id) :
      Follows P (Returns (.closure [v] d' env₁) [.unit]) (run d) := by
    have inner : AgreeBelow n env (Dict.insertEntry v .unit env₁) :=
      agree.trans (.insert hv .unit) (Nat.le_refl n)
    exact (hd _ inner).imp fun r hr => .closure rfl hr
  have found := survivors_found hes agree
  change Follows P _ (survivors run es >>= fun found => choose found _)
  generalize survivors run es = r at found ⊢
  cases found with
  | values hvs eq hes =>
    refine Follows.imp ?_ fun r hr => .app .op (.cons (.array hes) (.cons .lam (.cons .lam .nil))) hr
    match hvs with
    | .nil => exact otherwise_follows eq (delayed hjust (by omega)) (delayed hcons (by omega))
    | .cons hw .nil => exact .value hw (.resolve_one eq)
    | .cons _ (.cons _ _) => exact .raised nofun (.resolve_many eq)
  | raised ne hes => exact .raised ne (.app_error .op (.error_head (.array_error hes)))
  | stuck => exact .stuck
  | exhausted => exact .exhausted

end Defaults

section Data

variable {struct name enum ctor : String} {index size : Nat}

theorem tuple_tracks (le : n ≤ k)
    (hes : List.Forall₂ (fun e arg => Tracks P n env (run e) arg) es args) :
    Draws k (tuple args span) fun out _ =>
      Tracks P n env (evalStep run call env₀ (.tuple es m)) out := by
  refine (bindAll_follows le hes).imp fun out _ _ follows env₁ agree => ?_
  refine follows env₁ _ agree fun xs vs ws env₂ _ hvs _ bound => ?_
  exact .value (.tuple hvs) (.inject (.tuple (bound.refs span)))

theorem array_tracks (le : n ≤ k)
    (hes : List.Forall₂ (fun e arg => Tracks P n env (run e) arg) es args) :
    Draws k (array args span) fun out _ =>
      Tracks P n env (evalStep run call env₀ (.array es m)) out := by
  refine (bindAll_follows le hes).imp fun out _ _ follows env₁ agree => ?_
  refine follows env₁ _ agree fun xs vs ws env₂ _ hvs _ bound => ?_
  exact .value (.array hvs) (.inject (.array (finishesAll_of_forall₂ (bound.wrapped span))))

theorem runNamed_eq (fields : List (String × Expr Mark)) : runNamed run fields =
    runAll run (fields.map (·.2)) >>= fun vs => .ok ((fields.map (·.1)).zip vs) := by
  induction fields with
  | nil => rfl
  | cons f fields ih =>
    rw [runNamed, ih, List.map_cons, runAll_cons]
    simp only [bind_assoc]
    rfl

theorem record_tracks {fields fields' : List (String × Expr Mark)} (le : n ≤ k)
    (names : fields'.map (·.1) = fields.map (·.1))
    (hes : List.Forall₂ (fun e arg => Tracks P n env (run e) arg) (fields.map (·.2))
      (fields'.map (·.2))) :
    Draws k (record struct fields' span) fun out _ =>
      Tracks P n env (evalStep run call env₀ (.record struct fields m)) out := by
  refine (bindAll_follows le hes).imp fun out _ _ follows env₁ agree => ?_
  change Follows P _ (runNamed run fields >>= fun fs => .ok (.record struct fs))
  rw [runNamed_eq, bind_assoc]
  refine follows env₁ _ agree fun xs vs ws env₂ count hvs _ bound => ?_
  have length : (fields.map (·.1)).length = vs.length := by simpa using count.symm
  have keys : ((fields.map (·.1)).zip vs).map (·.1) = fields.map (·.1) :=
    List.map_fst_zip (Nat.le_of_eq length)
  have values : ((fields.map (·.1)).zip vs).map (·.2) = vs :=
    List.map_snd_zip (Nat.le_of_eq length.symm)
  have corresponds : StandsFor P (.record struct ((fields.map (·.1)).zip vs))
      (.record struct ((fields.map (·.1)).zip (ws.map .present))) := by
    have record : StandsFor P (.record struct ((fields.map (·.1)).zip vs)) _ :=
      .record (values.symm ▸ hvs)
    rwa [keys] at record
  refine .value corresponds (.inject ?_)
  rw [names]
  exact .record (bound.wrapped span)

theorem getElem?_corresponds {vs ws : List Value} (h : List.Forall₂ (StandsFor P) vs ws) {v : Value}
    (found : vs[index]? = some v) : ∃ w, ws[index]? = some w ∧ StandsFor P v w := by
  induction h generalizing index with
  | nil => simp at found
  | cons head _ ih =>
    cases index with
    | zero =>
      obtain rfl : _ = v := by simpa using found
      exact ⟨_, rfl, head⟩
    | succ index => exact ih (by simpa using found)

theorem component_tracks (le : n ≤ k) (he : Tracks P n env (run e) e') :
    Draws k (component e' index size span) fun out _ =>
      Tracks P n env (evalStep run call env₀ (.component e index size m)) out := by
  refine bindFresh_tracks le he fun x i _ _ => .pure fun v w env₁ hw _ found => ?_
  cases hw with
  | @tuple vs ws hvs =>
    change Follows P _ (stuckUnless vs[index]?)
    cases hv : vs[index]? with
    | none => exact .stuck
    | some v =>
      obtain ⟨w, hw, corresponds⟩ := getElem?_corresponds hvs hv
      exact .value corresponds (.inject (.component (.var found) hw))
  | _ => exact .stuck

theorem lookup_corresponds {fs : List (String × Value)} {ws : List Value} {v : Value}
    (h : List.Forall₂ (StandsFor P) (fs.map (·.2)) ws) (found : fs.lookup name = some v) :
    ∃ w, ((fs.map (·.1)).zip (ws.map Value.present)).lookup name = some w.present ∧
      StandsFor P v w := by
  induction fs generalizing ws with
  | nil => cases found
  | cons f fs ih =>
    obtain ⟨w, ws, head, rest, rfl⟩ := List.forall₂_cons_left_iff.mp h
    obtain ⟨key, value⟩ := f
    by_cases eq : name = key
    · subst eq
      obtain rfl : value = v := by simpa using found
      exact ⟨w, by simp, head⟩
    · have ne : (name == key) = false := by simpa using eq
      rw [List.lookup_cons, ne] at found
      obtain ⟨w, hw, corresponds⟩ := ih rest found
      exact ⟨w, by simpa [List.lookup_cons, ne] using hw, corresponds⟩

theorem field_tracks (le : n ≤ k) (he : Tracks P n env (run e) e') :
    Draws k (field e' struct name span) fun out _ =>
      Tracks P n env (evalStep run call env₀ (.field e struct name m)) out := by
  refine bindFresh_tracks le he fun x i _ _ => .pure fun v w env₁ hw _ found => ?_
  cases hw with
  | @record s fs ws hfs =>
    change Follows P _ (stuckUnless (fs.lookup name))
    cases hv : fs.lookup name with
    | none => exact .stuck
    | some v =>
      obtain ⟨w, hw, corresponds⟩ := lookup_corresponds hfs hv
      exact .value corresponds (.field (.var found) hw)
  | _ => exact .stuck

theorem inject_tracks (le : n ≤ k) (he : Tracks P n env (run e) e') :
    Draws k (inject enum ctor e' span) fun out _ =>
      Tracks P n env (evalStep run call env₀ (.inject enum ctor e m)) out := by
  refine bindFresh_tracks le he fun x i _ _ => .pure fun v w env₁ hw _ found => ?_
  exact .value (.inject hw) (.inject (.inject (.var found)))

end Data

section Control

variable {cond cond' yes yes' no no' : Expr Mark}

theorem ite_tracks (le : n ≤ k) (hcond : Tracks P n env (run cond) cond')
    (hyes : Tracks P n env (run yes) yes') (hno : Tracks P n env (run no) no') :
    Draws k (ite cond' yes' no' span) fun out _ =>
      Tracks P n env (evalStep run call env₀ (.ite cond yes no m)) out := by
  refine bindFresh_tracks le hcond fun x i _ _ => .pure fun v w env₁ hw agree found => ?_
  cases hw with
  | bool b =>
    cases b with
    | false => exact (hno env₁ agree).imp fun r hr => .ite (.var found) hr
    | true => exact (hyes env₁ agree).imp fun r hr => .ite (.var found) hr
  | _ => exact .stuck

theorem assert_tracks (le : n ≤ k) (he : Tracks P n env (run e) e') :
    Draws k (assert e' span) fun out _ =>
      Tracks P n env (evalStep run call env₀ (.assert e m)) out := by
  refine bindFresh_tracks le he fun x i _ _ => .pure fun v w env₁ hw _ found => ?_
  cases hw with
  | bool b =>
    cases b with
    | false => exact .raised nofun (.inject_error (.assert (.var found)))
    | true => exact .value .unit (.inject (.assert (.var found)))
  | _ => exact .stuck

end Control

section Functions

variable {f f' : Expr Mark} {enum : String}

theorem operator_tracks {o : Op} (first : (o.isHigherOrder || o == .resolveDefault) = false) :
    Draws k (operator o span) fun out _ =>
      Tracks P n env (evalStep run call env₀ (.op o m)) out := by
  refine .bind (.freshMany "x" o.arity) fun xs _ _ hxs => .pure fun env₁ _ => ?_
  exact .value (.op first hxs.1 hxs.2.1) (.inject .lam)

theorem call_tracks (le : n ≤ k) (hf : Tracks P n env (run f) f')
    (hes : List.Forall₂ (fun e arg => Tracks P n env (run e) arg) es args)
    (hcall : CallsFollow P call) :
    Draws k (Lift.call f' args span) fun out _ =>
      Tracks P n env (evalStep run call env₀ (.app f es m)) out := by
  refine bindFresh_tracks le hf fun x i hx hi => ?_
  refine (bindAll_follows (by omega) hes).imp fun out _ _ follows v w env₁ hw agree found => ?_
  refine follows env₁ _ agree fun xs vs ws env₂ _ hvs agree₂ bound => ?_
  have found : Dict.lookup? x env₂ = some w := by rw [agree₂ x (by omega), found]
  exact (hcall v w vs ws hw hvs).imp fun r hr => .app (.var found) (bound.refs span) hr

/-- A called operator returns what it does, and not an option of it. -/
theorem opCall_tracks {o : Op} (le : n ≤ k)
    (hrun : run f = .ok (.op o) ∨ run f = .error .exhausted)
    (hes : List.Forall₂ (fun e arg => Tracks P n env (run e) arg) es args)
    (hcall : ∀ vs ws, List.Forall₂ (StandsFor P) vs ws → call (.op o) vs = .error .stuck ∨
      call (.op o) vs = .error .exhausted ∨
      ∃ v w, call (.op o) vs = .ok v ∧ StandsFor P v w ∧ Returns (.op o) ws (.ok w)) :
    Draws k (mapAll (.op o (.erased span)) args span) fun out _ =>
      Tracks P n env (evalStep run call env₀ (.app f es m)) out := by
  refine (bindAll_follows le hes).imp fun out _ _ follows env₁ agree => ?_
  change Follows P _ (run f >>= fun g => runAll run es >>= fun vs => call g vs)
  rcases hrun with hrun | hrun
  · rw [hrun]
    refine follows env₁ _ agree fun xs vs ws env₂ _ hvs _ bound => ?_
    rcases hcall vs ws hvs with stuck | exhausted | ⟨v, w, hv, hw, returns⟩
    · rw [stuck]
      exact .stuck
    · rw [exhausted]
      exact .exhausted
    · rw [hv]
      exact .value hw (.inject (.app .op (bound.refs span) returns))
  · rw [hrun]
    exact .exhausted

/-- A lifted case takes a payload to what the case takes it to. -/
def CaseTracks (P : Expr Mark → Prop) (n : Nat) (env : Vars) (run : Expr Mark → Result)
    (call : Value → List Value → Result) (c c' : Expr Mark) : Prop :=
  ∀ v w env₁, StandsFor P v w → AgreeBelow n env env₁ →
    Follows P (fun r => ∃ g, Finishes env₁ c' (.ok g) ∧ Returns g [w] r)
      (run c >>= fun g => call g [v])

theorem lookup_case {R : Expr Mark → Expr Mark → Prop} {cases cases' : List (String × Expr Mark)}
    {ctor : String} {c : Expr Mark}
    (h : List.Forall₂ (fun c c' => c.1 = c'.1 ∧ R c.2 c'.2) cases cases')
    (found : cases.lookup ctor = some c) : ∃ c', cases'.lookup ctor = some c' ∧ R c c' := by
  induction h with
  | nil => cases found
  | @cons x x' cases cases' head _ ih =>
    rw [List.lookup_cons] at found ⊢
    rw [← head.1]
    split at found
    · obtain rfl : x.2 = c := by simpa using found
      exact ⟨x'.2, rfl, head.2⟩
    · exact ih found

theorem switch_tracks {cases cases' : List (String × Expr Mark)} (le : n ≤ k)
    (he : Tracks P n env (run e) e')
    (hcases : List.Forall₂ (fun c c' => c.1 = c'.1 ∧ CaseTracks P n env run call c.2 c'.2) cases
      cases') :
    Draws k (switch e' enum cases' span) fun out _ =>
      Tracks P n env (evalStep run call env₀ (.switch e enum cases m)) out := by
  refine bindFresh_tracks le he fun x i _ _ => .pure fun v w env₁ hw agree found => ?_
  cases hw with
  | @inject enum ctor v w hw =>
    cases hc : cases.lookup ctor with
    | none =>
      simp only [hc]
      exact .stuck
    | some c =>
      simp only [hc]
      obtain ⟨c', hc', tracks⟩ := lookup_case hcases hc
      refine (tracks v w env₁ hw agree).imp fun r hr => ?_
      obtain ⟨g, hg, returns⟩ := hr
      exact .switch (.var found) hc' hg returns
  | _ => exact .stuck

end Functions

end Ordinance.Lift
