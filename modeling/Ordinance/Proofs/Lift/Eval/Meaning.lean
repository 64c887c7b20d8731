import Ordinance.Proofs.Lift.Eval.Expr
import Ordinance.Proofs.Typing.Soundness.Check

namespace Ordinance

mutual

/-- A function of the unit value only is part of the type. -/
def Ty.hasThunk : Ty → Bool
  | .arrow ps r => (Ty.arrow ps r).isThunk || Ty.anyThunk ps || Ty.hasThunk r
  | .tuple ts => Ty.anyThunk ts
  | .option t | .array t => Ty.hasThunk t
  | .base _ | .struct _ | .enum _ | .any => false

def Ty.anyThunk : List Ty → Bool
  | [] => false
  | t :: ts => Ty.hasThunk t || Ty.anyThunk ts

end

theorem Ty.hasThunk_of_isThunk {t : Ty} (h : t.isThunk = true) : t.hasThunk = true := by
  cases t with
  | arrow ps r => simp [hasThunk, h]
  | _ => cases h

namespace Expr

/-- The types of the nodes, that of the root first; the functions that are cases are left out. -/
def valueTypes (e : Expr Mark) : List Ty :=
  e.fold fun e below => e.mark.ty :: match e, below with
    | switch .., scrutinee :: cases => scrutinee ++ cases.flatMap List.tail
    | _, _ => below.flatten

/-- No operator in the expression calls its arguments. -/
def opsFirstOrder (e : Expr Mark) : Bool :=
  e.all fun
    | op o _ => !(o.isHigherOrder || o == .resolveDefault)
    | _ => true

variable {e d : Expr Mark}

theorem mark_mem_valueTypes (e : Expr Mark) : e.mark.ty ∈ e.valueTypes := by
  rw [valueTypes, fold_eq]
  exact List.mem_cons_self

theorem valueTypes_switch {enum : String} {cases : List (String × Expr Mark)} {m : Mark} :
    (switch e enum cases m).valueTypes =
      m.ty :: (e.valueTypes ++ cases.flatMap fun c => c.2.valueTypes.tail) := by
  rw [valueTypes, fold_eq]
  simp [children, mark, valueTypes, List.flatMap_map]

theorem valueTypes_eq (h : ∀ d enum cases m, e ≠ switch d enum cases m) :
    e.valueTypes = e.mark.ty :: e.children.flatMap valueTypes := by
  rw [valueTypes, fold_eq, List.flatMap_def]
  cases e with
  | switch => exact absurd rfl (h _ _ _ _)
  | _ => rfl

theorem eq_lam_of_caseParts (h : d ∈ e.caseParts) : ∃ ps ts m, e = lam ps ts d m := by
  cases e with
  | lam ps ts b m =>
    obtain rfl := List.mem_singleton.mp h
    exact ⟨ps, ts, m, rfl⟩
  | _ => cases h

/-- A part that is lifted by itself is a part, or else a part of a case. -/
theorem liftedParts_cases (h : d ∈ e.liftedParts) :
    d ∈ e.children ∨ ∃ c ∈ e.children, d ∈ c.children := by
  cases e with
  | switch e enum cases m =>
    rcases List.mem_cons.mp h with rfl | h
    · exact .inl List.mem_cons_self
    · obtain ⟨c, hc, hd⟩ := List.mem_flatMap.mp h
      refine .inr ⟨c.2, List.mem_cons_of_mem _ (List.mem_map_of_mem hc), ?_⟩
      obtain ⟨ps, ts, m, eq⟩ := eq_lam_of_caseParts hd
      simp [eq, children]
  | _ => exact .inl h

theorem valueTypes_subset (h : d ∈ e.liftedParts) : d.valueTypes ⊆ e.valueTypes := by
  intro t ht
  by_cases isSwitch : ∃ d enum cases m, e = switch d enum cases m
  · obtain ⟨scrutinee, enum, cases, m, rfl⟩ := isSwitch
    rw [valueTypes_switch]
    refine List.mem_cons_of_mem _ (List.mem_append.mpr ?_)
    rcases List.mem_cons.mp h with rfl | h
    · exact .inl ht
    · obtain ⟨c, hc, hd⟩ := List.mem_flatMap.mp h
      obtain ⟨ps, ts, k, eq⟩ := eq_lam_of_caseParts hd
      refine .inr (List.mem_flatMap.mpr ⟨c, hc, ?_⟩)
      rw [eq, valueTypes_eq (by simp)]
      simpa [children] using ht
  · have other : ∀ d enum cases m, e ≠ switch d enum cases m := fun d enum cases m eq =>
      isSwitch ⟨d, enum, cases, m, eq⟩
    have parts : e.liftedParts = e.children := by
      cases e with
      | switch => exact absurd rfl (other _ _ _ _)
      | _ => rfl
    rw [valueTypes_eq other]
    exact List.mem_cons_of_mem _ (List.mem_flatMap.mpr ⟨d, parts ▸ h, ht⟩)

end Expr

namespace Lift

open Eval Typing

variable {decls : Decls} {env : Env} {Γ : Dict Var Ty} {e f : Expr Mark} {args : List (Expr Mark)}
  {t : Ty}

section Strictness

/-- The type of a delayed value is recorded at it. -/
theorem isThunk_of_lam {v : Var} {rest : List Ty} {body : Expr Mark} {m : Mark}
    (h : HasTy Eq decls env Γ (.lam [v] (.unit :: rest) body m) t) : m.ty.isThunk = true := by
  cases h with
  | lam count binders _ fits =>
    obtain rfl : rest = [] := by simpa using count
    obtain rfl : _ = _ := by simpa using binders
    rw [fits]
    rfl

theorem isThunk_of_forces (h : HasTy Eq decls env Γ f t) (forced : forces f args = true) :
    f.mark.ty.isThunk = true := by
  unfold forces at forced
  split at forced
  · exact isThunk_of_lam h
  · exact forced
  · cases forced

/-- Induction over the parts that are lifted by themselves, where the types of the nodes show that no
value is delayed and `good` holds of every node. -/
theorem prompt_induct {Q : Expr Mark → Prop} {good : Expr Mark → Bool}
    (step : ∀ e : Expr Mark, good e = true → ((∀ o m, e ≠ .op o m) → e.isStrictNode = true) →
      (∀ d ∈ e.liftedParts, Q d) → Q e)
    (typed : HasTy Eq decls env Γ e t) (all : e.all good = true)
    (prompt : ∀ u ∈ e.valueTypes, u.hasThunk = false) : Q e := by
  induction e using Expr.inductTwo generalizing Γ t with
  | node e ih ih₂ =>
    obtain ⟨here, below⟩ := Expr.all_iff.mp all
    have notThunk {d : Expr Mark} (hd : d.valueTypes ⊆ e.valueTypes) :
        ¬ d.mark.ty.isThunk = true := by
      intro h
      have := prompt _ (hd d.mark_mem_valueTypes)
      rw [Ty.hasThunk_of_isThunk h] at this
      cases this
    have node : (∀ o m, e ≠ .op o m) → e.isStrictNode = true := by
      intro notOp
      unfold Expr.isStrictNode
      split
      · exact absurd rfl (notOp _ _)
      · exact absurd (isThunk_of_lam typed) (notThunk (List.Subset.refl _))
      next f args m =>
        cases typed with
        | app typedf =>
          have hf := notThunk (Expr.valueTypes_subset (e := .app f args m) List.mem_cons_self)
          simpa using fun forced => hf (isThunk_of_forces typedf forced)
      · rfl
    refine step e here node fun d hd => ?_
    have prompt : ∀ u ∈ d.valueTypes, u.hasThunk = false := fun u hu =>
      prompt u (Expr.valueTypes_subset hd hu)
    rcases Expr.liftedParts_cases hd with hd | ⟨c, hc, hd⟩
    · obtain ⟨_, _, typed⟩ := typed.child hd
      exact ih d hd typed (below d hd) prompt
    · obtain ⟨_, _, typed⟩ := typed.child hc
      obtain ⟨_, _, typed⟩ := typed.child hd
      exact ih₂ c hc d hd typed ((Expr.all_iff.mp (below c hc)).2 d hd) prompt

/-- An expression is evaluated in the order of its lifted form, to go by the types of its nodes. -/
theorem strict_of_hasTy (typed : HasTy Eq decls env Γ e t) (ops : e.opsFirstOrder = true)
    (prompt : ∀ u ∈ e.valueTypes, u.hasThunk = false) : e.Strict := by
  refine prompt_induct (fun e op node parts => .node ?_ parts) typed ops prompt
  cases e with
  | op o m => exact op
  | _ => exact node nofun

end Strictness

theorem payloads_empty (n : Nat) : Ctx.Payloads ∅ n := nofun

/-- Lifting an expression that has passed the checker keeps its meaning: the lifted expression gives
the option of what stands for its value, or absence if it is empty, and raises any other exception
that it raises. This is for expressions that delay no value, and that call no function through an
operator nor compare any. -/
theorem lift_preserves_meaning (decls : Decls) (env : Env) (e t : Expr Mark) (ordered : e.Ordered)
    (checked : e.synthesize decls env = .ok t) (ops : t.opsFirstOrder = true)
    (prompt : ∀ u ∈ t.valueTypes, u.hasThunk = false) (n : Nat) (out : Expr Mark) (m : Nat)
    (lifted : t.lift ∅ n = (.ok out, m)) (fuel : Nat) (data : ComparesData fuel [] t) :
    (∀ v, eval fuel [] t = .ok v → ∃ w, Corresponds v w ∧ Finishes [] out (.ok w.present)) ∧
    (eval fuel [] t = .error (.raised .empty) → Finishes [] out (.ok .absent)) ∧
    ∀ x, x ≠ .empty → eval fuel [] t = .error (.raised x) →
      Finishes [] out (.error (.raised x)) := by
  have strict := strict_of_hasTy (synthesize_hasTy ordered checked).1 ops prompt
  obtain ⟨_, tracks⟩ :=
    (evalWith_simulated fuel).1 t strict (payloads_empty n) agrees_nil (Nat.le_refl n) out m lifted
  have follows := tracks [] (.refl n [])
  rw [data] at follows
  generalize eval fuel [] t = r at follows ⊢
  cases follows with
  | value hw h =>
    refine ⟨fun v eq => ?_, nofun, nofun⟩
    cases eq
    exact ⟨_, hw, h⟩
  | absent h =>
    refine ⟨nofun, fun _ => h, fun x ne eq => ?_⟩
    cases eq
    exact absurd rfl ne
  | raised ne h =>
    refine ⟨nofun, fun eq => ?_, fun x _ eq => ?_⟩
    · cases eq
      exact absurd rfl ne
    · cases eq
      exact h
  | stuck | exhausted => exact ⟨nofun, nofun, nofun⟩

section Example

/-- The bonus on an amount: `x` for an `x` over 10, but 1 for an `x` over 100, and 0 where neither
rule applies. -/
def bonus (amount : Int64) : Expr Mark :=
  let m : Mark := .blank
  let x : Expr Mark := .var ⟨0, "x"⟩ m
  let number (n : Int64) : Expr Mark := .lit (.int n) m
  let above (n : Int64) : Expr Mark := .app (.op (.gt .int) m) [x, number n] m
  let rule : Expr Mark := .default [.default [] (above 100) (number 1) m] (above 10) x m
  .rescue (.app (.lam [⟨0, "x"⟩] [.any] rule m) [number amount] m) .empty (number 0) m

def isInt (n : Int64) : Result → Bool
  | .ok (.int k) => k = n
  | _ => false

theorem eq_of_isInt {n : Int64} {r : Result} (h : isInt n r = true) : r = .ok (.int n) := by
  unfold isInt at h
  split at h
  · rw [of_decide_eq_true h]
  · cases h

theorem bonus_keeps_meaning : ∃ t out m, (bonus 20).synthesize ⟨∅, ∅⟩ .empty = .ok t ∧
    t.lift ∅ 1 = (.ok out, m) ∧ eval 9 [] t = .ok (.int 20) ∧
    Finishes [] out (.ok (.present (.int 20))) := by
  have found : ((bonus 20).synthesize ⟨∅, ∅⟩ .empty).toOption.any (fun t =>
      t.opsFirstOrder && t.valueTypes.all (!·.hasThunk) &&
        (t.lift ∅ 1).1.toOption.any (fun _ => true) && isInt 20 (evalWith equalData 9 [] t) &&
        isInt 20 (eval 9 [] t)) = true := by
    decide +kernel
  obtain ⟨t, checked, found⟩ := exists_ok found
  simp only [Bool.and_eq_true, List.all_eq_true] at found
  obtain ⟨⟨⟨⟨ops, prompt⟩, lifted⟩, strictly⟩, value⟩ := found
  obtain ⟨out, m, lifted, _⟩ := exists_run lifted
  have value := eq_of_isInt value
  have data : ComparesData 9 [] t := (eq_of_isInt strictly).trans value.symm
  obtain ⟨w, hw, finishes⟩ := (lift_preserves_meaning ⟨∅, ∅⟩ .empty (bonus 20) t (by decide)
    checked ops (by simpa using prompt) 1 out m lifted 9 data).1 _ value
  cases hw
  exact ⟨t, out, m, checked, lifted, value, finishes⟩

end Example

end Lift

end Ordinance
