import Ordinance.Proofs.Lift.Eval.Build
import Ordinance.Samples

namespace Ordinance.Lift

open Eval

variable {env : Vars} {span : Span} {x : Var} {arg body : Expr Mark} {xs : List Var}
  {args : List (Expr Mark)} {v : Value} {vs : List Value} {r : Result} {n : Nat}

/-- With a payload at hand a bind is its body. -/
theorem bind_present (harg : Finishes env arg (.ok v.present)) :
    Finishes env (bind x arg body span n).1 r ↔ Finishes (Dict.insertEntry x v env) body r :=
  (Finishes.switch_iff harg rfl .lam).trans (Returns.closure_iff rfl)

theorem bind_absent (harg : Finishes env arg (.ok .absent)) :
    Finishes env (bind x arg body span n).1 (.ok .absent) := by
  obtain ⟨y, inspects⟩ := (bind_finishes (n := n)).2
  exact inspects.absent env _ harg (nothing_finishes _)

theorem bind_error {h : Halt} (harg : Finishes env arg (.error h)) :
    Finishes env (bind x arg body span n).1 (.error h) := by
  obtain ⟨y, inspects⟩ := (bind_finishes (n := n)).2
  exact inspects.error env h harg

/-- The first arguments are present with the payloads `vs`: each is evaluated where the payloads of
those before it are at hand. -/
def Presents (env : Vars) (xs : List Var) (args : List (Expr Mark)) (vs : List Value) : Prop :=
  ∀ i arg v, args[i]? = some arg → vs[i]? = some v →
    Finishes (extend env (xs.zip (vs.take i))) arg (.ok v.present)

theorem presents_nil : Presents env xs args [] := by
  intro i arg v _ hv
  simp at hv

theorem presents_cons : Presents env (x :: xs) (arg :: args) (v :: vs) ↔
    Finishes env arg (.ok v.present) ∧ Presents (Dict.insertEntry x v env) xs args vs := by
  constructor
  · intro h
    exact ⟨h 0 arg v rfl rfl, fun i arg' v' ha hv => h (i + 1) arg' v' ha hv⟩
  · rintro ⟨first, rest⟩ i arg' v' ha hv
    cases i with
    | zero =>
      cases ha
      cases hv
      exact first
    | succ i => exact rest i arg' v' ha hv

/-- Evaluation gets past the binds of the arguments that are present, with their payloads at hand. -/
theorem bindEach_reaches (length : xs.length = args.length) (le : vs.length ≤ args.length)
    (h : Presents env xs args vs) :
    Finishes env (bindEach body span (xs.zip args) n).1 r ↔ Finishes (extend env (xs.zip vs))
      (bindEach body span ((xs.zip args).drop vs.length) n).1 r := by
  induction vs generalizing env xs args with
  | nil =>
    rw [List.zip_nil_right]
    rfl
  | cons v vs ih =>
    obtain ⟨arg, args, rfl⟩ := List.exists_cons_of_length_pos (Nat.zero_lt_of_lt le)
    obtain ⟨x, xs, rfl⟩ := List.exists_cons_of_length_eq_add_one length
    obtain ⟨first, rest⟩ := presents_cons.mp h
    -- The inner binds are made first, so those that are left are the same with or without this one.
    exact (bind_present first).trans (ih (Nat.succ.inj length) (Nat.le_of_succ_le_succ le) rest)

/-- Evaluation ends at the bind of the first argument that has no payload. -/
theorem bindEach_stops (length : xs.length = args.length) (next : args[vs.length]? = some arg)
    (present : Presents env xs args vs) :
    (Finishes (extend env (xs.zip vs)) arg (.ok .absent) →
      Finishes env (bindEach body span (xs.zip args) n).1 (.ok .absent)) ∧
    ∀ h, Finishes (extend env (xs.zip vs)) arg (.error h) →
      Finishes env (bindEach body span (xs.zip args) n).1 (.error h) := by
  obtain ⟨lt, rfl⟩ := List.getElem?_eq_some_iff.mp next
  have within : vs.length < (xs.zip args).length := by
    rw [List.length_zip]
    omega
  have left : (xs.zip args).drop vs.length = (xs[vs.length], args[vs.length]) ::
      (xs.zip args).drop (vs.length + 1) := by
    rw [List.drop_eq_getElem_cons within, List.getElem_zip]
  constructor
  · intro absent
    rw [bindEach_reaches length (Nat.le_of_lt lt) present, left]
    exact bind_absent absent
  · intro h error
    rw [bindEach_reaches length (Nat.le_of_lt lt) present, left]
    exact bind_error error

/-- Binding is strict, and from left to right: where the arguments before it are present, one that is
absent, or that has no value, ends it, whatever comes after; where all are present, it is what was
made from the new variables, which hold the payloads in order. -/
theorem bindAll_strict (args : List (Expr Mark)) (k : List Var → Supply (Expr Mark)) (span : Span)
    (n : Nat) (env : Vars) (vs : List Value) :
    let drawn := freshMany "x" args.length n
    let xs := drawn.1
    let out := (bindAll args k span n).1
    let inner := extend env (xs.zip vs)
    Presents env xs args vs →
      (∀ arg, args[vs.length]? = some arg →
        (Finishes inner arg (.ok .absent) → Finishes env out (.ok .absent)) ∧
        ∀ h, Finishes inner arg (.error h) → Finishes env out (.error h)) ∧
      (vs.length = args.length → AgreeBelow n env inner ∧ Bound inner xs vs ∧
        ∀ r, Finishes env out r ↔ Finishes inner (k xs drawn.2).1 r) := by
  intro drawn xs out inner present
  obtain ⟨-, length, nodup, bounds⟩ := Draws.freshMany (n := n) "x" args.length
  have eq : out = (bindEach (k xs drawn.2).1 span (xs.zip args) (k xs drawn.2).2).1 := rfl
  refine ⟨fun arg next => ?_, fun all => ?_⟩
  · rw [eq]
    exact bindEach_stops length next present
  · refine ⟨.extend (fun x hx => (bounds x hx).1) vs, bound_extend nodup (length.trans all.symm), ?_⟩
    intro r
    have none_left : (xs.zip args).drop vs.length = [] := by
      rw [List.drop_eq_nil_iff, List.length_zip]
      omega
    rw [eq, bindEach_reaches length (Nat.le_of_eq all) present, none_left]
    rfl

section Example

private def present (i : Int64) : Expr Mark := wrap (.lit (.int i) .blank) .synthetic

private def minus (xs : List Var) : Supply (Expr Mark) :=
  return apply (.op (.sub .int) .blank) (refs xs .synthetic) .synthetic

private def conflict : Expr Mark := .raise .conflict .blank

private theorem present_finishes (env : Vars) (i : Int64) :
    Finishes env (present i) (.ok (Value.int i).present) := .inject .lit

/-- Of two payloads the second is taken from the first; what comes after an absent argument, or one
that raises, does not matter. -/
theorem minus_strict :
    Finishes [] (bindAll [present 5, present 3] minus .synthetic 0).1 (.ok (.int 2)) ∧
    Finishes [] (bindAll [present 5, nothing .synthetic, conflict] minus .synthetic 0).1
      (.ok .absent) ∧
    Finishes [] (bindAll [present 5, conflict, nothing .synthetic] minus .synthetic 0).1
      (.error (.raised .conflict)) := by
  have one (env : Vars) (x : Var) (xs : List Var) (args : List (Expr Mark)) :
      Presents env (x :: xs) (present 5 :: args) [.int 5] :=
    presents_cons.mpr ⟨present_finishes env 5, presents_nil⟩
  refine ⟨?_, ?_, ?_⟩
  · have both := bindAll_strict [present 5, present 3] minus .synthetic 0 [] [.int 5, .int 3]
      (presents_cons.mpr ⟨present_finishes _ 5,
        presents_cons.mpr ⟨present_finishes _ 3, presents_nil⟩⟩)
    obtain ⟨-, bound, whole⟩ := both.2 rfl
    exact (whole _).mpr (.app .op (bound.refs .synthetic) (.op (.const _)))
  · have first := bindAll_strict [present 5, nothing .synthetic, conflict] minus .synthetic 0 []
      [.int 5] (one _ _ _ _)
    exact (first.1 _ rfl).1 (nothing_finishes _)
  · have first := bindAll_strict [present 5, conflict, nothing .synthetic] minus .synthetic 0 []
      [.int 5] (one _ _ _ _)
    exact (first.1 _ rfl).2 _ .raise

end Example

end Ordinance.Lift
