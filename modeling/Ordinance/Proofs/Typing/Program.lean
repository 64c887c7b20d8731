import Ordinance.Proofs.Program.Basic
import Ordinance.Proofs.Typing.Principal
import Ordinance.Samples

namespace Ordinance.Typing

section Rules

/-- The local definitions are well typed, each under those before it; `Δ` has the types of all. What
is known of locations may change from one to the next. -/
inductive LetsTyped (decls : Decls) (vars : Dict Var Ty) :
    Dict Var Ty → List (ScopeLet Mark) → Dict Var Ty → Prop
  | nil (Γ : Dict Var Ty) : LetsTyped decls vars Γ [] Γ
  | cons {Γ Δ : Dict Var Ty} {env : Env} {l : ScopeLet Mark} {ls : List (ScopeLet Mark)} :
      env.vars = vars → HasTy Eq decls env Γ l.expr l.ty →
      LetsTyped decls vars (Γ.insert l.var l.ty) ls Δ → LetsTyped decls vars Γ (l :: ls) Δ

/-- The scope is a function between declared records. -/
structure BodyTyped (decls : Decls) (vars : Dict Var Ty) (b : ScopeBody Mark) : Prop where
  input : ∃ layout, decls.structs.get? b.input = some layout
  output : ∃ layout, decls.structs.get? b.output = some layout
  lets : ∃ Γ env, LetsTyped decls vars (Dict.insert ∅ b.inputVar (.struct b.input)) b.lets Γ ∧
    env.vars = vars ∧ HasTy Eq decls env Γ b.result (.struct b.output)

/-- What is known after a local definition that has been found to have the type `t`. -/
def publish (env : Env) (l : ScopeLet Mark) (t : Ty) : Env :=
  if l.role = .definition then env.bindScopeVar l.var.name t else env

/-- The second local definitions are the first with the types found for them. Each is well typed under
those before it, and is known to those after it by a type between the one that it came with and
the one that it has in the end. `env'` and `Δ` are what is known after all of them. -/
inductive LetsFound (decls : Decls) : Env → Dict Var Ty → List (ScopeLet Mark) →
    List (ScopeLet Mark) → Env → Dict Var Ty → Prop
  | nil (env : Env) (Γ : Dict Var Ty) : LetsFound decls env Γ [] [] env Γ
  | cons {env env' : Env} {Γ Δ : Dict Var Ty} {l k : ScopeLet Mark} {ls ks : List (ScopeLet Mark)}
      {t : Ty} : l.Admits k → l.ty.Admits t → t.Admits k.ty → HasTy Eq decls env Γ k.expr k.ty →
      LetsFound decls (publish env k t) (Γ.insert k.var k.ty) ls ks env' Δ →
      LetsFound decls env Γ (l :: ls) (k :: ks) env' Δ

/-- The second body is the first with the types found for it. -/
structure BodyFound (decls : Decls) (env : Env) (b c : ScopeBody Mark) : Prop where
  admits : b.Admits c
  input : ∃ layout, decls.structs.get? c.input = some layout
  output : ∃ layout, decls.structs.get? c.output = some layout
  lets : ∃ env' Γ, LetsFound decls env (Dict.insert ∅ c.inputVar (.struct c.input)) b.lets c.lets
    env' Γ ∧ HasTy Eq decls env' Γ c.result (.struct c.output)

/-- The items are well typed, each under those before it. -/
inductive ItemsTyped (decls : Decls) : Dict Var Ty → List (Item Mark) → Prop
  | nil (vars : Dict Var Ty) : ItemsTyped decls vars []
  | definition {vars : Dict Var Ty} {env : Env} {d : Definition Mark} {is : List (Item Mark)} :
      env.vars = vars → HasTy Eq decls env ∅ d.expr d.ty →
      ItemsTyped decls (vars.insert d.var d.ty) is → ItemsTyped decls vars (.definition d :: is)
  | scope {vars : Dict Var Ty} {s : Scope Mark} {is : List (Item Mark)} :
      BodyTyped decls vars s.body → ItemsTyped decls (vars.insert s.var s.ty) is →
      ItemsTyped decls vars (.scope s :: is)

end Rules

variable {decls : Decls} {env : Env} {s t : Store} {φ : Class → Ty} {locals : Locals}

section Found

variable {env' : Env} {Γ Δ : Dict Var Ty} {l : ScopeLet Mark} {ls ks : List (ScopeLet Mark)}

@[simp] theorem vars_publish (l : ScopeLet Mark) (u : Ty) : (publish env l u).vars = env.vars := by
  unfold publish
  split <;> rfl

@[simp] theorem scopes_publish (l : ScopeLet Mark) (u : Ty) :
    (publish env l u).scopes = env.scopes := by
  unfold publish
  split <;> rfl

theorem LetsFound.vars_eq (h : LetsFound decls env Γ ls ks env' Δ) : env'.vars = env.vars := by
  induction h with
  | nil => rfl
  | cons _ _ _ _ _ ih => rw [ih, vars_publish]

theorem LetsFound.admits (h : LetsFound decls env Γ ls ks env' Δ) :
    List.Forall₂ ScopeLet.Admits ls ks := by
  induction h with
  | nil => exact .nil
  | cons admits _ _ _ _ ih => exact .cons admits ih

theorem LetsFound.typed (h : LetsFound decls env Γ ls ks env' Δ) :
    LetsTyped decls env.vars Γ ks Δ := by
  induction h with
  | nil env Γ => exact .nil Γ
  | cons _ _ _ typed _ ih =>
    rw [vars_publish] at ih
    exact .cons rfl typed ih

theorem BodyFound.typed {b c : ScopeBody Mark} (h : BodyFound decls env b c) :
    BodyTyped decls env.vars c := by
  obtain ⟨env', Γ, lets, result⟩ := h.lets
  exact ⟨h.input, h.output, Γ, env', lets.typed, lets.vars_eq, result⟩

end Found

def PendingLet.assign (φ : Class → Ty) (l : PendingLet) : ScopeLet Mark :=
  { l.source with ty := φ l.expr.mark.cls, expr := Typing.assign φ l.expr }

theorem elaborateLets_sound {ls : List (ScopeLet Mark)} (ordered : ∀ l ∈ ls, l.expr.Ordered)
    (hs : s.Wf) (h : Scoped s locals none) :
    Sound φ s (elaborateLets decls env locals ls) (fun r t => Scoped t r.2.2 none)
      (fun r => LetsFound decls env (locals.mapValues φ) ls (r.1.map (·.assign φ)) r.2.1
        (r.2.2.mapValues φ)) := by
  induction ls generalizing s env locals with
  | nil => exact .pure hs h (.nil _ _)
  | cons l ls ih =>
    obtain ⟨ordered, ordereds⟩ := List.forall_mem_cons.mp ordered
    refine .bind (.all fun χ => load_sound hs l.ty) fun c s₁ hs₁ le₁ hc => ?_
    obtain ⟨hc, loaded⟩ := hc
    have h := h.mono le₁
    refine .bind (elaborate_sound ordered hs₁ (h.check hc)) fun e s₂ hs₂ le₂ settled => ?_
    have h := h.mono le₂
    have hc := Nat.lt_of_lt_of_le hc le₂.size
    refine .bind (get_sound hs₂) fun _ s₃ _ _ same => ?_
    obtain ⟨rfl, rfl⟩ := same
    -- The type by which later definitions know this one is what its class reads as now.
    have written : l.ty.Admits (s₃.resolve c) := loaded _ (hs₂.model_resolve.of_le hs₁ le₂)
    refine .bind (ih ordereds hs₂ (h.bind [l.var] (List.forall_mem_singleton.mpr hc)))
      fun r s₄ hs₄ le₄ bound => ?_
    refine .pure hs₄ bound fun rest model first admits => ?_
    have cls : e.mark.cls = c := settled.goal_eq rfl
    rw [Dict.mapValues_insert, ← cls] at rest
    rw [← cls] at admits written
    exact .cons ⟨rfl, rfl, rfl, admits, first.2⟩ written (model.resolve_admits _) first.1 rest

theorem definition_typed {d d' : Definition Mark} {env' : Env} (ordered : d.expr.Ordered)
    (hs : s.Wf) (run : d.check decls env s = .ok ((d', env'), t)) :
    HasTy Eq decls env ∅ d'.expr d'.ty ∧ env' = env.bindVar d.var d'.ty ∧
      (Item.definition d).Admits (.definition d') := by
  obtain ⟨c, s₁, load, run⟩ := bind_ok run
  obtain ⟨e, s₂, elaborated, run⟩ := bind_ok run
  cases run
  obtain ⟨hs₁, _, hc, reads⟩ := load_sound hs d.ty c s₁ load
  obtain ⟨hs₂, le, settled, typed, admits⟩ :=
    elaborate_finish ordered hs₁ ((scoped_empty s₁).check hc) elaborated
  have ty : (Pending.finish t e).mark.ty = t.resolve c := by
    rw [finish_eq, assign_mark, settled.goal_eq rfl]
  rw [ty] at typed
  exact ⟨typed, rfl, rfl, rfl, reads (hs₂.model_resolve.of_le hs₁ le), admits⟩

/-- A definition that can be given types is given some of which they are instances. -/
theorem definition_completes {d : Definition Mark} {r : Expr Mark} {u : Ty}
    (typed : HasTy Eq decls env ∅ r u) (filled : d.expr.Admits r) (admits : d.ty.Admits u)
    (tracing : Bool) :
    ∃ d' s, d.check decls env (.empty tracing) = .ok ((d', env.bindVar d.var d'.ty), s) ∧
      d'.ty.Admits u ∧ d'.expr.Admits r := by
  have start := reads_empty tracing u
  have run : Completes (Store.empty tracing).resolve (.empty tracing) (d.check decls env) fun x _ _ =>
      x.2 = env.bindVar d.var x.1.ty ∧ x.1.ty.Admits u ∧ x.1.expr.Admits r := by
    refine .bind (load_completes start.wf start.model admits) fun c s₁ φ₁ ext₁ hc => ?_
    refine .bind (elaborate_complete d.expr typed filled ((start.later ext₁).check hc))
      fun e s₂ φ₂ ext₂ records => ?_
    have hc := ext₂.carry hc
    refine .bind (get_completes ext₂.wf ext₂.model) fun s₃ s₄ φ₃ ext₃ same => ?_
    subst same
    refine .pure ext₃.wf ext₃.model ⟨rfl, ?_, ?_⟩
    · rw [← (ext₃.carry hc).2]
      exact ext₃.model.resolve_admits c
    · exact finish_admits ext₃.model typed (ext₃.records records)
  obtain ⟨⟨d', env'⟩, s, _, run, _, bound, found⟩ := run
  obtain rfl : env' = env.bindVar d.var d'.ty := bound
  exact ⟨d', s, run, found⟩

theorem body_found {b b' : ScopeBody Mark} {span : Span}
    (ordered : ∀ l ∈ b.lets, l.expr.Ordered) (result : b.result.Ordered) (hs : s.Wf)
    (run : b.check decls env span s = .ok (b', t)) : BodyFound decls env b b' := by
  obtain ⟨input, s₁, run₁, run⟩ := bind_ok run
  obtain ⟨output, s₂, run₂, run⟩ := bind_ok run
  obtain ⟨c, s₃, run₃, run⟩ := bind_ok run
  obtain ⟨r, s₄, run₄, run⟩ := bind_ok run
  obtain ⟨d, s₅, run₅, run⟩ := bind_ok run
  obtain ⟨e, s₆, run₆, run⟩ := bind_ok run
  cases run
  obtain ⟨hs₁, _, input, _⟩ := resolved_sound (φ := t.resolve) hs _ s₁ run₁
  obtain ⟨hs₂, _, output, _⟩ := resolved_sound (φ := t.resolve) hs₁ _ s₂ run₂
  obtain ⟨hs₃, _, hc, readc⟩ := alloc_sound (φ := t.resolve) hs₂ (by simp [Shape.parts]) c s₃ run₃
  have within : Scoped s₃ (Dict.insert ∅ b.inputVar c) none :=
    (scoped_empty s₃).bind [b.inputVar] (List.forall_mem_singleton.mpr hc)
  obtain ⟨hs₄, le₄, within, found⟩ := elaborateLets_sound (φ := t.resolve) ordered hs₃ within r s₄
    run₄
  obtain ⟨hs₅, le₅, hd, readd⟩ := alloc_sound (φ := t.resolve) hs₄ (by simp [Shape.parts]) d s₅
    run₅
  obtain ⟨hs₆, le₆, settled, typedResult, admits⟩ :=
    elaborate_finish result hs₅ ((within.mono le₅).check hd) run₆
  have model₅ : s₅.Model t.resolve := hs₆.model_resolve.of_le hs₅ le₆
  have model₄ : s₄.Model t.resolve := model₅.of_le hs₄ le₅
  have readc : t.resolve c = .struct b.input := readc (model₄.of_le hs₃ le₄) (by simp)
  have readd : t.resolve d = .struct b.output := readd model₅ (by simp)
  have ty : (Pending.finish t e).mark.ty = .struct b.output := by
    rw [finish_eq, assign_mark, settled.goal_eq rfl, readd]
  have found := found model₄
  rw [Dict.mapValues_insert, Dict.mapValues_empty, readc] at found
  rw [ty] at typedResult
  exact ⟨⟨rfl, rfl, rfl, found.admits, admits⟩, ⟨_, input⟩, ⟨_, output⟩, _, _, found, typedResult⟩

section Items

variable {env' : Env}

/-- What is known after an item that has been checked. -/
def bindItem (decls : Decls) (env : Env) : Item Mark → Env
  | .definition d => env.bindVar d.var d.ty
  | .scope s => (env.bindVar s.var s.ty).bindScope s.name
      ((decls.structs.get? s.body.output).getD ∅)

theorem scopeVars_bindItem (i : Item Mark) : (bindItem decls env i).scopeVars = env.scopeVars := by
  cases i <;> rfl

theorem definition_run {d d' : Definition Mark} (run : d.check decls env s = .ok ((d', env'), t)) :
    (Item.definition d).check decls env s = .ok ((.definition d', env'), t) := bind_run _ run

theorem scope_run {c : Scope Mark} {b : ScopeBody Mark} (run : c.body.check decls env c.span s = .ok (b, t)) :
    (Item.scope c).check decls env s =
      .ok ((.scope { c with body := b }, (env.bindVar c.var c.ty).bindScope c.name
        ((decls.structs.get? c.body.output).getD ∅)), t) := by
  have checked : c.check decls env s = .ok (({ c with body := b }, (env.bindVar c.var c.ty).bindScope
      c.name ((decls.structs.get? c.body.output).getD ∅)), t) := bind_run _ run
  exact bind_run _ checked

theorem body_records {b c : ScopeBody Mark} {span : Span}
    (run : b.check decls env span s = .ok (c, t)) :
    c.input = b.input ∧ c.output = b.output := by
  obtain ⟨_, _, _, run⟩ := bind_ok run
  obtain ⟨_, _, _, run⟩ := bind_ok run
  obtain ⟨_, _, _, run⟩ := bind_ok run
  obtain ⟨_, _, _, run⟩ := bind_ok run
  obtain ⟨_, _, _, run⟩ := bind_ok run
  obtain ⟨_, _, _, run⟩ := bind_ok run
  cases run
  exact ⟨rfl, rfl⟩

/-- An item is checked as a definition or through the body of its scope. -/
theorem item_ok {i j : Item Mark} (run : i.check decls env s = .ok ((j, env'), t)) :
    env' = bindItem decls env j ∧
      ((∃ d d', i = .definition d ∧ j = .definition d' ∧
        d.check decls env s = .ok ((d', env'), t)) ∨
      ∃ c b, i = .scope c ∧ j = .scope { c with body := b } ∧
        c.body.check decls env c.span s = .ok (b, t)) := by
  cases i with
  | definition d =>
    obtain ⟨⟨d', env₁⟩, _, first, done⟩ := bind_ok run
    cases done
    obtain ⟨c, s₁, load, rest⟩ := bind_ok first
    obtain ⟨e, s₂, elaborated, rest⟩ := bind_ok rest
    cases rest
    exact ⟨rfl, .inl ⟨d, _, rfl, rfl, first⟩⟩
  | scope c =>
    obtain ⟨p, _, first, done⟩ := bind_ok run
    cases done
    obtain ⟨b, _, body, done⟩ := bind_ok first
    cases done
    obtain ⟨input, output⟩ := body_records body
    refine ⟨?_, .inr ⟨c, b, rfl, rfl, body⟩⟩
    simp only [bindItem, Scope.ty, input, output]

end Items

theorem checkItems_cons {tracing : Bool} {env' : Env} {i i' : Item Mark} {is : List (Item Mark)}
    {r : List (Item Mark) × Env × List Step}
    (first : i.check decls env (.empty tracing) = .ok ((i', env'), s))
    (rest : checkItems decls tracing env' is = .ok r) :
    checkItems decls tracing env (i :: is) =
      .ok (i' :: r.1, r.2.1, s.trace.toList ++ r.2.2) := by
  change Except.bind (i.check decls env (.empty tracing)) _ = _
  rw [first]
  change Except.bind (checkItems decls tracing env' is) _ = _
  rw [rest]
  rfl

theorem checkItems_cons_ok {tracing : Bool} {i : Item Mark} {is : List (Item Mark)}
    {r : List (Item Mark) × Env × List Step}
    (run : checkItems decls tracing env (i :: is) = .ok r) : ∃ i' env₁ s r₁,
      i.check decls env (.empty tracing) = .ok ((i', env₁), s) ∧
      checkItems decls tracing env₁ is = .ok r₁ ∧
      r = (i' :: r₁.1, r₁.2.1, s.trace.toList ++ r₁.2.2) := by
  change Except.bind (i.check decls env (.empty tracing)) _ = _ at run
  cases first : i.check decls env (.empty tracing) with
  | error x =>
    rw [first] at run
    cases run
  | ok p =>
    rw [first] at run
    change Except.bind (checkItems decls tracing p.1.2 is) _ = _ at run
    cases rest : checkItems decls tracing p.1.2 is with
    | error x =>
      rw [rest] at run
      cases run
    | ok r₁ =>
      rw [rest] at run
      cases run
      exact ⟨p.1.1, p.1.2, p.2, r₁, rfl, rest, rfl⟩

/-- What the checker returns for a list of items is well typed, and is the list with its open types
filled in. -/
theorem items_typed {tracing : Bool} {is : List (Item Mark)}
    {r : List (Item Mark) × Env × List Step} (ordered : ∀ i ∈ is, ∀ e ∈ i.exprs, e.Ordered)
    (run : checkItems decls tracing env is = .ok r) :
    ItemsTyped decls env.vars r.1 ∧ List.Forall₂ Item.Admits is r.1 := by
  induction is generalizing env r with
  | nil =>
    cases run
    exact ⟨.nil _, .nil⟩
  | cons i is ih =>
    obtain ⟨ordered, ordereds⟩ := List.forall_mem_cons.mp ordered
    obtain ⟨i', env₁, s, r₁, first, rest, rfl⟩ := checkItems_cons_ok run
    have hs := Store.empty_wf tracing
    obtain ⟨typeds, admitss⟩ := ih ordereds rest
    obtain ⟨rfl, ⟨d, d', rfl, rfl, checked⟩ | ⟨c, b, rfl, rfl, checked⟩⟩ := item_ok first
    · obtain ⟨typed, _, admits⟩ := definition_typed (ordered _ List.mem_cons_self) hs checked
      exact ⟨.definition rfl typed typeds, .cons admits admitss⟩
    · obtain ⟨lets, result⟩ := List.forall_mem_append.mp ordered
      have found : BodyFound decls env c.body b :=
        body_found (List.forall_mem_map.mp lets) (List.forall_mem_singleton.mp result) hs checked
      exact ⟨.scope found.typed typeds, .cons ⟨rfl, rfl, rfl, found.admits⟩ admitss⟩

theorem program_check_iff {tracing : Bool} {p : Program Mark} {c : CheckedProgram} :
    p.check tracing = .ok c ↔ ∃ r, checkItems p.decls tracing .empty p.items = .ok r ∧
      c = ⟨{ p with items := r.1 }, r.2.1, r.2.2⟩ := by
  change Except.bind (checkItems p.decls tracing .empty p.items) _ = _ ↔ _
  cases checkItems p.decls tracing .empty p.items with
  | error x => simp [Except.bind]
  | ok r =>
    change Except.ok _ = _ ↔ _
    simp [eq_comm]

theorem program_typed {tracing : Bool} {p : Program Mark} {c : CheckedProgram}
    (ordered : ∀ e ∈ p.exprs, e.Ordered) (run : p.check tracing = .ok c) :
    c.program.decls = p.decls ∧ ItemsTyped p.decls ∅ c.program.items ∧
      List.Forall₂ Item.Admits p.items c.program.items := by
  obtain ⟨r, items, rfl⟩ := program_check_iff.mp run
  exact ⟨rfl, items_typed (fun i hi e he => ordered e (List.mem_flatMap.mpr ⟨i, hi, he⟩)) items⟩

end Ordinance.Typing
