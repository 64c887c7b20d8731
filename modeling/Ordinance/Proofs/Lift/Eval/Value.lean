import Mathlib.Data.List.Forall2
import Ordinance.Eval.Basic
import Ordinance.Lift.Expr

namespace Ordinance

mutual

/-- No function is part of the value. -/
def Value.isData : Value → Bool
  | .bool _ | .int _ | .money _ | .unit => true
  | .tuple vs | .array vs => Value.allData vs
  | .record _ fs => Value.allDataNamed fs
  | .inject _ _ v => v.isData
  | .closure .. | .op _ | .scope .. => false

def Value.allData : List Value → Bool
  | [] => true
  | v :: vs => v.isData && Value.allData vs

def Value.allDataNamed : List (String × Value) → Bool
  | [] => true
  | (_, v) :: fs => v.isData && Value.allDataNamed fs

end

namespace Value

theorem allData_iff {vs : List Value} : allData vs = true ↔ ∀ v ∈ vs, v.isData = true := by
  induction vs with
  | nil => simp [allData]
  | cons v vs ih => simp [allData, ih]

theorem allDataNamed_iff {fs : List (String × Value)} :
    allDataNamed fs = true ↔ ∀ v ∈ fs.map (·.2), v.isData = true := by
  induction fs with
  | nil => simp [allDataNamed]
  | cons f fs ih => simp [allDataNamed, ih]

/-- Induction over values, with a hypothesis for every direct part of a value that is not a
function. -/
@[elab_as_elim] theorem induct {P : Value → Prop} (bool : ∀ b, P (bool b)) (int : ∀ n, P (int n))
    (money : ∀ n, P (money n)) (unit : P unit) (tuple : ∀ vs, (∀ v ∈ vs, P v) → P (tuple vs))
    (record : ∀ s fs, (∀ v ∈ fs.map (·.2), P v) → P (record s fs))
    (inject : ∀ n c v, P v → P (inject n c v)) (array : ∀ vs, (∀ v ∈ vs, P v) → P (array vs))
    (closure : ∀ ps e env, P (closure ps e env)) (op : ∀ o, P (op o))
    (scope : ∀ b env, P (scope b env)) (v : Value) : P v :=
  @Value.rec P (fun vs => ∀ v ∈ vs, P v) (fun fs => ∀ v ∈ fs.map (·.2), P v) (fun _ => True)
    (fun f => P f.2) (fun _ => True) bool int money unit tuple record inject array
    (fun ps e env _ => closure ps e env) op (fun b env _ => scope b env)
    nofun (fun _ _ hv hvs => List.forall_mem_cons.mpr ⟨hv, hvs⟩)
    nofun (fun _ _ hf hfs => List.forall_mem_cons.mpr ⟨hf, hfs⟩)
    trivial (fun _ _ _ _ => trivial) (fun _ _ hv => hv) (fun _ _ _ => trivial) v

end Value

namespace Eval

/-- Equality where it does not look into functions. -/
def equalData : Comparison := fun v w => if v.isData && w.isData then equal v w else .error .stuck

/-- No comparison in the run is of values that hold functions: to refuse those changes nothing. -/
def ComparesData (fuel : Nat) (env : Vars) (e : Expr Mark) : Prop :=
  evalWith equalData fuel env e = eval fuel env e

end Eval

namespace Expr

/-- The node is not an operator that calls its arguments, and is not lifted as a delayed value or
as a demand for one. -/
def isStrictNode : Expr Mark → Bool
  | op o _ => !(o.isHigherOrder || o == .resolveDefault)
  | lam [_] (.base .unit :: _) _ _ => false
  | app f args _ => !Lift.forces f args
  | _ => true

/-- What is lifted of a case: a function of the payload stays one. -/
def caseParts : Expr Mark → List (Expr Mark)
  | lam _ _ body _ => [body]
  | _ => []

/-- The parts of a node that are lifted by themselves. -/
def liftedParts : Expr Mark → List (Expr Mark)
  | switch e _ cases _ => e :: cases.flatMap fun c => c.2.caseParts
  | e => e.children

/-- The expression is evaluated in the same order as its lifted form. -/
inductive Strict : Expr Mark → Prop
  | node {e : Expr Mark} : e.isStrictNode = true → (∀ d ∈ e.liftedParts, Strict d) → Strict e

end Expr

namespace Lift

open Eval

/-- All variables are lifted to payloads, with numbers below `n`. -/
def Ctx.Payloads (ctx : Ctx) (n : Nat) : Prop :=
  ∀ v b, ctx.get? v = some b → b.mode = .payload ∧ b.target.id < n

/-- What a variable is lifted to has a value if the variable has one. -/
def Ctx.Covers (ctx : Ctx) (env env' : Vars) : Prop :=
  ∀ v b w, ctx.get? v = some b → Dict.lookup? v env = some w →
    (Dict.lookup? b.target env').isSome

/-- The value that stands for another one in a lifted program. Fields and elements are options, and
a function that is lifted returns one; its body satisfies `P`. -/
inductive StandsFor (P : Expr Mark → Prop) : Value → Value → Prop
  | bool (b : Bool) : StandsFor P (.bool b) (.bool b)
  | int (n : Int64) : StandsFor P (.int n) (.int n)
  | money (n : Int64) : StandsFor P (.money n) (.money n)
  | unit : StandsFor P .unit .unit
  | tuple {vs ws : List Value} : List.Forall₂ (StandsFor P) vs ws →
      StandsFor P (.tuple vs) (.tuple ws)
  | record {struct : String} {fs : List (String × Value)} {ws : List Value} :
      List.Forall₂ (StandsFor P) (fs.map (·.2)) ws →
      StandsFor P (.record struct fs) (.record struct ((fs.map (·.1)).zip (ws.map .present)))
  | inject {enum ctor : String} {v w : Value} : StandsFor P v w →
      StandsFor P (.inject enum ctor v) (.inject enum ctor w)
  | array {vs ws : List Value} : List.Forall₂ (StandsFor P) vs ws →
      StandsFor P (.array vs) (.array (ws.map .present))
  | closure {params targets : List Var} {body body' : Expr Mark} {env env' : Vars}
      {ctx inner : Ctx} {n i m : Nat} :
      ctx.Payloads n → ctx.Covers env env' →
      (∀ v b w w', ctx.get? v = some b → Dict.lookup? v env = some w →
        Dict.lookup? b.target env' = some w' → StandsFor P w w') →
      ctx.bindParams params n = ((inner, targets), i) → body.lift inner i = (.ok body', m) →
      P body →
      StandsFor P (.closure params body env) (.closure targets body' env')
  | op {o : Op} {xs : List Var} {span : Span} {env : Vars} :
      (o.isHigherOrder || o == .resolveDefault) = false → xs.length = o.arity → xs.Nodup →
      StandsFor P (.op o) (.closure xs
        (wrap (apply (.op o (.erased span)) (refs xs span) span) span) env)

/-- The same where functions are evaluated in the order of their lifted forms. -/
abbrev Corresponds : Value → Value → Prop := StandsFor Expr.Strict

variable {P : Expr Mark → Prop}

section Equality

variable {vs vs' ws ws' : List Value}

theorem same_present (v w : Value) : v.present.same w.present = v.same w := by
  simp [Value.present, Value.same]

theorem sameAll_present (vs ws : List Value) :
    Value.sameAll (vs.map .present) (ws.map .present) = Value.sameAll vs ws := by
  induction vs generalizing ws with
  | nil => cases ws <;> simp [Value.sameAll]
  | cons v vs ih => cases ws <;> simp [Value.sameAll, same_present, ih]

theorem sameNamed_eq (fs gs : List (String × Value)) : Value.sameNamed fs gs =
    (decide (fs.map (·.1) = gs.map (·.1)) && Value.sameAll (fs.map (·.2)) (gs.map (·.2))) := by
  induction fs generalizing gs with
  | nil => cases gs <;> simp [Value.sameNamed, Value.sameAll]
  | cons f fs ih =>
    cases gs with
    | nil => simp [Value.sameNamed, Value.sameAll]
    | cons g gs =>
      obtain ⟨n, v⟩ := f
      obtain ⟨m, w⟩ := g
      by_cases h : n = m <;> simp [Value.sameNamed, Value.sameAll, ih, h, Bool.and_left_comm]

theorem zip_present_fst {fs : List (String × Value)}
    (h : List.Forall₂ (StandsFor P) (fs.map (·.2)) ws) :
    ((fs.map (·.1)).zip (ws.map Value.present)).map (·.1) = fs.map (·.1) :=
  List.map_fst_zip (by simpa using Nat.le_of_eq h.length_eq)

theorem zip_present_snd {fs : List (String × Value)}
    (h : List.Forall₂ (StandsFor P) (fs.map (·.2)) ws) :
    ((fs.map (·.1)).zip (ws.map Value.present)).map (·.2) = ws.map .present :=
  List.map_snd_zip (by simpa using Nat.le_of_eq h.length_eq.symm)

theorem sameAll_corresponds
    (ih : ∀ v ∈ vs, v.isData = true → ∀ v' w w', w.isData = true → StandsFor P v v' →
      StandsFor P w w' → v'.same w' = v.same w)
    (dv : ∀ v ∈ vs, v.isData = true) (dw : ∀ w ∈ ws, w.isData = true)
    (hv : List.Forall₂ (StandsFor P) vs vs') (hw : List.Forall₂ (StandsFor P) ws ws') :
    Value.sameAll vs' ws' = Value.sameAll vs ws := by
  induction hv generalizing ws ws' with
  | nil => cases hw <;> simp [Value.sameAll]
  | @cons v v' vs vs' head _ ihs =>
    obtain ⟨ih, ih'⟩ := List.forall_mem_cons.mp ih
    obtain ⟨dv, dvs⟩ := List.forall_mem_cons.mp dv
    cases hw with
    | nil => simp [Value.sameAll]
    | cons head' rest' =>
      obtain ⟨dw, dws⟩ := List.forall_mem_cons.mp dw
      rw [Value.sameAll, Value.sameAll, ih dv _ _ _ dw head head', ihs ih' dvs dws rest']

/-- Whether values without functions are equal shows in those that stand for them. -/
theorem same_corresponds {v v' w w' : Value} (dv : v.isData = true) (dw : w.isData = true)
    (hv : StandsFor P v v') (hw : StandsFor P w w') : v'.same w' = v.same w := by
  induction v using Value.induct generalizing v' w w' with
  | bool | int | money | unit =>
    cases hv
    cases hw <;> simp [Value.same]
  | tuple vs ih =>
    cases hv with
    | tuple hv =>
      cases hw with
      | tuple hw =>
        simpa [Value.same] using sameAll_corresponds (fun v hv dv v' w w' => ih v hv dv)
          (Value.allData_iff.mp dv) (Value.allData_iff.mp dw) hv hw
      | _ => simp [Value.same]
  | array vs ih =>
    cases hv with
    | array hv =>
      cases hw with
      | array hw =>
        simpa [Value.same, sameAll_present] using sameAll_corresponds
          (fun v hv dv v' w w' => ih v hv dv) (Value.allData_iff.mp dv) (Value.allData_iff.mp dw)
          hv hw
      | _ => simp [Value.same]
  | record s fs ih =>
    cases hv with
    | @record _ _ vs hv =>
      cases hw with
      | @record s' gs ws hw =>
        have all := sameAll_corresponds (fun v hv dv v' w w' => ih v hv dv)
          (Value.allDataNamed_iff.mp dv) (Value.allDataNamed_iff.mp dw) hv hw
        simp only [Value.same, sameNamed_eq, zip_present_fst hv, zip_present_snd hv,
          zip_present_fst hw, zip_present_snd hw, sameAll_present, all]
      | _ => simp [Value.same]
  | inject n c v ih =>
    cases hv with
    | inject hv =>
      cases hw with
      | @inject _ _ w _ hw =>
        have dw : w.isData = true := dw
        simp [Value.same, ih dv dw hv hw]
      | _ => simp [Value.same]
  | closure | op | scope => cases dv

end Equality

section Operators

private theorem corresponds_one {v : Value} {ws : List Value}
    (h : List.Forall₂ (StandsFor P) [v] ws) : ∃ w, StandsFor P v w ∧ ws = [w] := by
  obtain ⟨w, _, hw, rest, rfl⟩ := List.forall₂_cons_left_iff.mp h
  cases rest
  exact ⟨w, hw, rfl⟩

private theorem corresponds_two {v₁ v₂ : Value} {ws : List Value}
    (h : List.Forall₂ (StandsFor P) [v₁, v₂] ws) :
    ∃ w₁ w₂, StandsFor P v₁ w₁ ∧ StandsFor P v₂ w₂ ∧ ws = [w₁, w₂] := by
  obtain ⟨w₁, _, h₁, rest, rfl⟩ := List.forall₂_cons_left_iff.mp h
  obtain ⟨w₂, h₂, rfl⟩ := corresponds_one rest
  exact ⟨w₁, w₂, h₁, h₂, rfl⟩

private theorem exactly_cases (value : Int64 → Value) (n : Int) :
    exactly value n = .error .stuck ∨ ∃ w, exactly value n = .ok (value w) := by
  unfold exactly
  split
  · exact .inr ⟨_, rfl⟩
  · exact .inl rfl

/-- An operator that does not call its arguments does the same with values that stand for others. -/
theorem applyOp_corresponds {o : Op} {vs ws : List Value} (call : Value → List Value → Result)
    (first : (o.isHigherOrder || o == .resolveDefault) = false)
    (h : List.Forall₂ (StandsFor P) vs ws) :
    applyOp equalData call o vs = .error .stuck ∨
      ∃ v w, applyOp equalData call o vs = .ok v ∧ vs.length = o.arity ∧ StandsFor P v w ∧
        ∀ call', applyOp equal call' o ws = .ok w := by
  fun_cases applyOp equalData call o vs with
  | case1 a =>
    obtain ⟨_, ha, rfl⟩ := corresponds_one h
    cases ha
    exact .inr ⟨_, _, rfl, rfl, .bool _, fun _ => rfl⟩
  | case2 a b | case3 a b | case8 a b | case9 a b =>
    obtain ⟨_, _, ha, hb, rfl⟩ := corresponds_two h
    cases ha
    cases hb
    exact .inr ⟨_, _, rfl, rfl, .bool _, fun _ => rfl⟩
  | case4 a b | case6 a b | case7 a b =>
    obtain ⟨_, _, ha, hb, rfl⟩ := corresponds_two h
    cases ha
    cases hb
    obtain stuck | ⟨n, eq⟩ := exactly_cases .int _
    · exact .inl stuck
    · exact .inr ⟨_, _, eq, rfl, .int n, fun _ => eq⟩
  | case5 a b =>
    obtain ⟨_, _, ha, hb, rfl⟩ := corresponds_two h
    cases ha
    cases hb
    obtain stuck | ⟨n, eq⟩ := exactly_cases .money _
    · exact .inl stuck
    · exact .inr ⟨_, _, eq, rfl, .money n, fun _ => eq⟩
  | case10 v w =>
    obtain ⟨v', w', hv, hw, rfl⟩ := corresponds_two h
    unfold equalData
    split
    next data =>
      obtain ⟨dv, dw⟩ := Bool.and_eq_true_iff.mp data
      refine .inr ⟨_, _, rfl, rfl, .bool _, fun _ => ?_⟩
      rw [← same_corresponds dv dw hv hw]
      rfl
    next => exact .inl rfl
  | case11 vs =>
    obtain ⟨_, hv, rfl⟩ := corresponds_one h
    cases hv with
    | array hv =>
      refine .inr ⟨_, _, rfl, rfl, .int _, fun _ => ?_⟩
      simp [applyOp, hv.length_eq]
  | case12 | case13 | case14 | case15 | case16 | case17 => cases first
  | case18 => exact .inl rfl

end Operators

end Lift

end Ordinance
