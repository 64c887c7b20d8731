import Ordinance.Proofs.Lift.Typing.Check
import Ordinance.Proofs.Program.Basic
import Ordinance.Proofs.Typing.Program

namespace Ordinance

open Typing Lift

/-- What the variable of a lifted local definition holds: a forced input of a called scope is passed
as it is. -/
def ScopeLet.mode (l : ScopeLet Mark) : Mode :=
  match l.role, l.expr with
  | .callInput, .force .. => .payload
  | _, _ => .option

/-- The second item is of the lifted types of the first. -/
def Item.Retyped : Item Mark → Item Mark → Prop
  | definition d, definition e => e.ty.Admits (.option d.ty.lift)
  | scope s, scope r =>
      List.Forall₂ (fun l k => k.ty.Admits (l.mode.lift l.ty)) s.body.lets r.body.lets
  | _, _ => False

namespace Lift

/-- Local definitions that have the types `ts` where the variables are as assumed; `B` is what is
known after them. -/
inductive LetsTake (decls : Decls) :
    Assumptions → List (ScopeLet Mark) → List Ty → Assumptions → Prop
  | nil (A : Assumptions) : LetsTake decls A [] [] A
  | cons {A B : Assumptions} {l : ScopeLet Mark} {ls : List (ScopeLet Mark)} {t : Ty}
      {ts : List Ty} : l.ty.Admits t → A.Fresh l.var → (∀ env, Typed decls env A l.expr t) →
      LetsTake decls (A.add [l.var] [t]) ls ts B → LetsTake decls A (l :: ls) (t :: ts) B

/-- A scope that has local definitions of the types `ts` where the variables are as assumed. -/
structure BodyTakes (decls : Decls) (A : Assumptions) (b : ScopeBody Mark) (ts : List Ty) :
    Prop where
  input : ∃ layout, decls.structs.get? b.input = some layout
  output : ∃ layout, decls.structs.get? b.output = some layout
  fresh : A.Fresh b.inputVar
  lets : ∃ B, LetsTake decls (A.add [b.inputVar] [.struct b.input]) b.lets ts B ∧
    ∀ env, Typed decls env B b.result (.struct b.output)

/-- The second items have the lifted types of the first, each under those before it. -/
inductive ItemsTake (decls : Decls) : Assumptions → List (Item Mark) → List (Item Mark) → Prop
  | nil (A : Assumptions) : ItemsTake decls A [] []
  | definition {A : Assumptions} {d e : Definition Mark} {is js : List (Item Mark)} :
      e.ty.Admits (.option d.ty.lift) → A.Fresh e.var →
      (∀ env, Typed decls env A e.expr (.option d.ty.lift)) →
      ItemsTake decls (A.add [e.var] [.option d.ty.lift]) is js →
      ItemsTake decls A (.definition d :: is) (.definition e :: js)
  | scope {A : Assumptions} {s r : Scope Mark} {is js : List (Item Mark)} : A.Fresh r.var →
      BodyTakes decls A r.body (s.body.lets.map fun l => l.mode.lift l.ty) →
      ItemsTake decls (A.add [r.var] [r.ty]) is js →
      ItemsTake decls A (.scope s :: is) (.scope r :: js)

variable {decls : Decls} {env env' : Env} {A B : Assumptions} {s : Store} {φ : Class → Ty}
  {locals : Locals} {Γ : Dict Var Ty} {v : Var} {t u : Ty} {ts : List Ty}

theorem lets_complete {ls : List (ScopeLet Mark)} (h : LetsTake decls A ls ts B)
    (holds : A.Holds env Γ) (reads : Reads φ s locals none Γ u) :
    Completes φ s (elaborateLets decls env locals ls) fun r t ψ =>
      List.Forall₂ (fun l t' => l.expr.mark.cls < t.size ∧ ψ l.expr.mark.cls = t') r.1 ts ∧
      ∃ Δ, Reads ψ t r.2.2 none Δ u ∧ B.Holds r.2.1 Δ := by
  induction h generalizing env Γ s φ locals with
  | nil A => exact .pure reads.wf reads.model ⟨.nil, Γ, reads, holds⟩
  | @cons A B l ls t ts admits fresh typed _ ih =>
    refine .bind (load_completes reads.wf reads.model admits) fun c s₁ φ₁ ext₁ hc => ?_
    have reads := reads.later ext₁
    refine .bind (elaborate_completes (typed env Γ holds) (reads.check hc))
      fun e s₂ φ₂ ext₂ he => ?_
    have reads := reads.later ext₂
    have hc := ext₂.carry hc
    refine .bind (get_completes reads.wf reads.model) fun s₃ s₄ φ₃ ext₃ _ => ?_
    have reads := (reads.later ext₃).bind [l.var]
      (List.forall_mem_singleton.mpr (ext₃.carry hc).1)
    rw [List.map_singleton, (ext₃.carry hc).2] at reads
    have holds' : (A.add [l.var] [t]).Holds
        (if l.role = .definition then env.bindScopeVar l.var.name (s₃.resolve c) else env)
        (Γ.insertMany ([l.var].zip [t])) := by
      have vars : (if l.role = .definition then env.bindScopeVar l.var.name (s₃.resolve c)
          else env).vars = env.vars := by
        split <;> rfl
      intro v u hv
      rw [varTy_of_vars vars]
      exact holds.insertMany (List.forall_mem_singleton.mpr fresh) (List.nodup_singleton _) rfl v u hv
    refine .bind (ih holds' reads) fun r s₅ φ₄ ext₄ hr => ?_
    refine .pure ext₄.wf ext₄.model ⟨.cons ?_ hr.1, hr.2⟩
    exact ext₄.carry (ext₃.carry he)

theorem definition_complete {d : Definition Mark} (admits : d.ty.Admits t)
    (typed : Typed decls env A d.expr t) (holds : A.Holds env ∅) (tracing : Bool) :
    ∃ d' s, d.check decls env (.empty tracing) = .ok ((d', env.bindVar d.var d'.ty), s) ∧
      d'.ty.Admits t := by
  obtain ⟨r, filled, typed⟩ := (typed ∅ holds).exists_filled
  obtain ⟨d', s, run, found, _⟩ := definition_completes typed filled admits tracing
  exact ⟨d', s, run, found⟩

theorem body_complete {b : ScopeBody Mark} (span : Span) (h : BodyTakes decls A b ts)
    (holds : A.Holds env ∅) (tracing : Bool) :
    ∃ b' s, b.check decls env span (.empty tracing) = .ok (b', s) ∧
      List.Forall₂ (fun l t => l.ty.Admits t) b'.lets ts := by
  obtain ⟨⟨_, input⟩, ⟨_, output⟩, fresh, B, lets, result⟩ := h
  have start := reads_empty tracing (.struct b.output)
  have run : Completes (Store.empty tracing).resolve (.empty tracing) (b.check decls env span) fun b' _ _ =>
      List.Forall₂ (fun l t => l.ty.Admits t) b'.lets ts := by
    refine .bind (resolved_completes input start.wf start.model) fun _ s₁ φ₁ ext₁ _ => ?_
    refine .bind (resolved_completes output ext₁.wf ext₁.model) fun _ s₂ φ₂ ext₂ _ => ?_
    refine .bind (alloc_completes ext₂.wf ext₂.model (by simp [Shape.parts])
      (u := .struct b.input) fun _ => rfl) fun c s₃ φ₃ ext₃ hc => ?_
    have reads := (((start.later ext₁).later ext₂).later ext₃).bind [b.inputVar]
      (List.forall_mem_singleton.mpr hc.1)
    rw [List.map_singleton, hc.2] at reads
    have holds : (A.add [b.inputVar] [.struct b.input]).Holds env _ :=
      holds.insertMany (List.forall_mem_singleton.mpr fresh) (List.nodup_singleton _) rfl
    refine .bind (lets_complete lets holds reads) fun r s₄ φ₄ ext₄ hr => ?_
    obtain ⟨found, Δ, reads, holds⟩ := hr
    refine .bind (alloc_completes reads.wf reads.model (by simp [Shape.parts])
      (u := .struct b.output) fun _ => rfl) fun d s₅ φ₅ ext₅ hd => ?_
    refine .bind (elaborate_completes (result r.2.1 Δ holds) ((reads.later ext₅).check hd))
      fun e s₆ φ₆ ext₆ _ => ?_
    refine .bind (get_completes ext₆.wf ext₆.model) fun s₇ s₈ φ₇ ext₇ same => ?_
    subst same
    refine .pure ext₇.wf ext₇.model (List.forall₂_map_left_iff.mpr (found.imp fun l t hl => ?_))
    rw [← (ext₇.carry (ext₆.carry (ext₅.carry hl))).2]
    exact ext₇.model.resolve_admits _
  obtain ⟨b', s, _, run, _, admits⟩ := run
  exact ⟨b', s, run, admits⟩

/-- A variable that is bound for later items has a type of its own. -/
theorem holds_bindVar {u : Ty} (holds : A.Holds env ∅) (fresh : A.Fresh v) (admits : u.Admits t) :
    (A.add [v] [t]).Holds (env.bindVar v u) ∅ := by
  rintro w t' (hw | hw)
  · have ne : w ≠ v := by
      rintro rfl
      exact fresh t' hw
    obtain ⟨u', found, hu⟩ := holds w t' hw
    exact ⟨u', by simpa [Env.var?, Env.bindVar, ne] using found, hu⟩
  · obtain ⟨rfl, rfl⟩ : w = v ∧ t' = t := by simpa using hw
    exact ⟨u, by simp [Env.var?, Env.bindVar], admits⟩

/-- Items that have the lifted types pass the checker, with types that admit the lifted ones. -/
theorem items_complete {is js : List (Item Mark)} (h : ItemsTake decls A is js)
    (holds : A.Holds env ∅) (tracing : Bool) :
    ∃ r, checkItems decls tracing env js = .ok r ∧ List.Forall₂ Item.Retyped is r.1 := by
  induction h generalizing env with
  | nil A => exact ⟨_, rfl, .nil⟩
  | @definition A d e is js admits fresh typed _ ih =>
    obtain ⟨e', s, run, found⟩ := definition_complete admits (typed env) holds tracing
    obtain ⟨r, rest, retyped⟩ := ih (holds_bindVar holds fresh found)
    exact ⟨_, checkItems_cons (definition_run run) rest, .cons found retyped⟩
  | @scope A c c' is js fresh takes _ ih =>
    obtain ⟨b, s, run, found⟩ := body_complete c'.span takes holds tracing
    let outputs := (decls.structs.get? c'.body.output).getD ∅
    have later : (A.add [c'.var] [c'.ty]).Holds
        ((env.bindVar c'.var c'.ty).bindScope c'.name outputs) ∅ := fun v t hv =>
      (varTy_of_vars rfl).mp (holds_bindVar holds fresh (.refl c'.ty) v t hv)
    obtain ⟨r, rest, retyped⟩ := ih later
    exact ⟨_, checkItems_cons (scope_run run) rest,
      .cons (List.forall₂_map_right_iff.mp found).flip retyped⟩

end Lift

end Ordinance
