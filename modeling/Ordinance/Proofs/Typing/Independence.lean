import Ordinance.Proofs.Expr.Scope
import Ordinance.Proofs.Typing.Uses

namespace Ordinance

section Names

variable {μ : Type}

/-- The scopes that the locations of the expression name. -/
def Expr.subScopes (e : Expr μ) : List String :=
  e.fold fun e below => own e ++ below.flatten
where
  own : Expr μ → List String
    | location (.subScopeVar scope _ _) _ => [scope]
    | _ => []

theorem Expr.subScopes_eq (e : Expr μ) :
    e.subScopes = subScopes.own e ++ e.children.flatMap subScopes := by
  rw [subScopes, fold_eq]
  rfl

theorem Expr.subScopes_subset {e d : Expr μ} (h : d ∈ e.children) : d.subScopes ⊆ e.subScopes := by
  intro x hx
  rw [subScopes_eq e]
  exact List.mem_append_right _ (List.mem_flatMap.mpr ⟨d, h, hx⟩)

namespace Item

/-- The name by which locations of later items know the item. -/
def name? : Item μ → Option String
  | definition _ => none
  | scope s => some s.name

/-- All variables that the item refers to. -/
def vars (i : Item μ) : List Var := i.exprs.flatMap Expr.vars

def subScopes (i : Item μ) : List String := i.exprs.flatMap Expr.subScopes

theorem exprs_subset {i : Item μ} {e : Expr μ} (h : e ∈ i.exprs) :
    e.vars ⊆ i.vars ∧ e.subScopes ⊆ i.subScopes :=
  ⟨fun _ hx => List.mem_flatMap.mpr ⟨e, h, hx⟩, fun _ hx => List.mem_flatMap.mpr ⟨e, h, hx⟩⟩

/-- The items are known by different names, and neither refers to the other. -/
structure Independent (i j : Item μ) : Prop where
  var_ne : i.var ≠ j.var
  name_ne : ∀ n ∈ i.name?, n ∉ j.name?
  left : j.var ∉ i.vars ∧ ∀ n ∈ j.name?, n ∉ i.subScopes
  right : i.var ∉ j.vars ∧ ∀ n ∈ i.name?, n ∉ j.subScopes

theorem Independent.symm {i j : Item μ} (h : i.Independent j) : j.Independent i :=
  ⟨h.var_ne.symm, fun n hn hi => h.name_ne n hi hn, h.right, h.left⟩

end Item

end Names

/-- The environments tell the same about the variables and the scopes listed. -/
structure Env.SameFor (vars : List Var) (scopes : List String) (env env' : Env) : Prop where
  vars {v : Var} : v ∈ vars → env.var? v = env'.var? v
  scopeVars : env.scopeVars = env'.scopeVars
  scopes {n : String} : n ∈ scopes → env.scopes.get? n = env'.scopes.get? n

theorem Env.SameFor.mono {vars vars' : List Var} {scopes scopes' : List String} {env env' : Env}
    (h : SameFor vars scopes env env') (hv : vars' ⊆ vars) (hs : scopes' ⊆ scopes) :
    SameFor vars' scopes' env env' :=
  ⟨fun mem => h.vars (hv mem), h.scopeVars, fun mem => h.scopes (hs mem)⟩

theorem Env.SameFor.symm {vars : List Var} {scopes : List String} {env env' : Env}
    (h : SameFor vars scopes env env') : SameFor vars scopes env' env :=
  ⟨fun mem => (h.vars mem).symm, h.scopeVars.symm, fun mem => (h.scopes mem).symm⟩

namespace Typing

variable {decls : Decls} {env env' : Env} {s t : Store} {locals : Locals}

section Expressions

variable {e : Expr Mark}

/-- The two environments do not make a difference to the expression. -/
def Indifferent (decls : Decls) (env env' : Env) (e : Expr Mark) : Prop :=
  ∀ locals goal, elaborate decls env locals goal e = elaborate decls env' locals goal e

theorem elaborateEach_indifferent {es : List (Expr Mark)}
    (h : ∀ e ∈ es, Indifferent decls env env' e) (goals : List (Option Class)) :
    elaborateEach decls env locals goals es = elaborateEach decls env' locals goals es := by
  induction es generalizing goals with
  | nil => rfl
  | cons e es ih =>
    obtain ⟨head, tail⟩ := List.forall_mem_cons.mp h
    simp only [elaborateEach, head locals, ih tail]

theorem elaborateNamed_indifferent {es : List (String × Expr Mark)}
    (h : ∀ e ∈ es.map (·.2), Indifferent decls env env' e) (expected : String → Span → TypeM Class) :
    elaborateNamed decls env locals expected es = elaborateNamed decls env' locals expected es := by
  induction es with
  | nil => rfl
  | cons e es ih =>
    obtain ⟨head, tail⟩ := List.forall_mem_cons.mp h
    simp only [elaborateNamed, head locals, ih tail]

theorem locationType_indifferent {l : Location} {m : Mark}
    (same : Env.SameFor [] (Expr.location l m).subScopes env env') (span : Span) :
    locationType env span l = locationType env' span l := by
  cases l with
  | scopeVar x => simp only [locationType, Env.scopeVar?, same.scopeVars]
  | subScopeVar scope nickname x =>
    have known : env.scopes.get? scope = env'.scopes.get? scope := by
      apply same.scopes
      rw [Expr.subScopes_eq]
      exact List.mem_cons_self
    simp only [locationType, Env.subScopeVar?, known]

/-- Only what an expression refers to matters to it. -/
theorem elaborate_indifferent (same : Env.SameFor e.vars e.subScopes env env') :
    Indifferent decls env env' e := by
  induction e using Expr.induct with
  | node e ih =>
    replace ih : ∀ d ∈ e.children, Indifferent decls env env' d := fun d hd =>
      ih d hd (same.mono (Expr.vars_subset hd) (Expr.subScopes_subset hd))
    intro locals goal
    cases e with
    | var v m =>
      have known : env.var? v = env'.var? v := same.vars (Expr.named_subset _ List.mem_cons_self)
      simp only [elaborate, varClass, known]
    | location l m =>
      have known := same.mono (List.nil_subset _) (List.Subset.refl _)
      simp only [elaborate, locationType_indifferent known]
    | lit l m | op o m | raise x m => simp only [elaborate]
    | tuple es m | array es m =>
      have parts : ∀ e ∈ es, Indifferent decls env env' e := ih
      simp only [elaborate, elaborateEach_indifferent parts]
    | record struct fields m =>
      have parts : ∀ e ∈ fields.map (·.2), Indifferent decls env env' e := ih
      simp only [elaborate, elaborateNamed_indifferent parts]
    | component e i n m | field e struct name m | inject enum ctor e m | force e m | assert e m
    | lam params tys e m =>
      have he : Indifferent decls env env' e := ih e List.mem_cons_self
      simp only [elaborate, he _ _]
    | switch e enum cases m =>
      obtain ⟨he, hcases⟩ := List.forall_mem_cons.mp ih
      simp only [elaborate, he _ _, elaborateNamed_indifferent hcases]
    | app f args m =>
      obtain ⟨hf, hargs⟩ := List.forall_mem_cons.mp ih
      simp only [elaborate, hf _ _, elaborateEach_indifferent hargs]
    | default es just cons m =>
      obtain ⟨hes, hj, hc⟩ : (∀ e ∈ es, Indifferent decls env env' e) ∧
          Indifferent decls env env' just ∧ Indifferent decls env env' cons := by
        simpa [Expr.children, or_imp, forall_and] using ih
      simp only [elaborate, elaborateEach_indifferent hes, hj _ _, hc _ _]
    | rescue body x handler m =>
      obtain ⟨hb, hh⟩ : Indifferent decls env env' body ∧ Indifferent decls env env' handler := by
        simpa [Expr.children] using ih
      simp only [elaborate, hb _ _, hh _ _]
    | ite cond yes no m =>
      obtain ⟨hc, hy, hn⟩ : Indifferent decls env env' cond ∧ Indifferent decls env env' yes ∧
          Indifferent decls env env' no := by
        simpa [Expr.children] using ih
      simp only [elaborate, hc _ _, hy _ _, hn _ _]

end Expressions

section Items

variable {vars : List Var} {scopes : List String}

/-- The local definitions of a scope come out the same, and add the same to what is known. -/
theorem elaborateLets_indifferent {ls : List (ScopeLet Mark)} {ks : List PendingLet} {env₁ : Env}
    {locals₁ : Locals} (same : Env.SameFor vars scopes env env')
    (hv : ∀ l ∈ ls, l.expr.vars ⊆ vars) (hs : ∀ l ∈ ls, l.expr.subScopes ⊆ scopes)
    (run : elaborateLets decls env locals ls s = .ok ((ks, env₁, locals₁), t)) :
    ∃ env₁', elaborateLets decls env' locals ls s = .ok ((ks, env₁', locals₁), t) ∧
      Env.SameFor vars scopes env₁ env₁' := by
  induction ls generalizing env env' locals s ks with
  | nil =>
    cases run
    exact ⟨env', rfl, same⟩
  | cons l ls ih =>
    obtain ⟨hv, hvs⟩ := List.forall_mem_cons.mp hv
    obtain ⟨hs, hss⟩ := List.forall_mem_cons.mp hs
    obtain ⟨c, s₁, load, run⟩ := bind_ok run
    obtain ⟨e, s₂, elaborated, run⟩ := bind_ok run
    obtain ⟨_, s₃, get, run⟩ := bind_ok run
    cases get
    obtain ⟨⟨ks', env₂, locals₂⟩, s₄, rest, run⟩ := bind_ok run
    cases run
    rw [elaborate_indifferent (same.mono hv hs)] at elaborated
    have published : Env.SameFor vars scopes
        (if l.role = .definition then env.bindScopeVar l.var.name (s₂.resolve c) else env)
        (if l.role = .definition then env'.bindScopeVar l.var.name (s₂.resolve c) else env') := by
      split
      · exact ⟨same.vars, congrArg (Dict.insert · _ _) same.scopeVars, same.scopes⟩
      · exact same
    obtain ⟨env₃, rest', same'⟩ := ih published hvs hss rest
    refine ⟨env₃, ?_, same'⟩
    rw [elaborateLets, bind_run _ load, bind_run _ elaborated]
    exact (bind_run _ rfl).trans (bind_run _ rest')

theorem body_indifferent {b c : ScopeBody Mark} {span : Span}
    (same : Env.SameFor vars scopes env env')
    (lets : ∀ l ∈ b.lets, l.expr.vars ⊆ vars ∧ l.expr.subScopes ⊆ scopes)
    (result : b.result.vars ⊆ vars ∧ b.result.subScopes ⊆ scopes)
    (run : b.check decls env span s = .ok (c, t)) : b.check decls env' span s = .ok (c, t) := by
  obtain ⟨_, s₁, run₁, run⟩ := bind_ok run
  obtain ⟨_, s₂, run₂, run⟩ := bind_ok run
  obtain ⟨_, s₃, run₃, run⟩ := bind_ok run
  obtain ⟨⟨ks, env₁, locals₁⟩, s₄, run₄, run⟩ := bind_ok run
  obtain ⟨_, s₅, run₅, run⟩ := bind_ok run
  obtain ⟨_, s₆, run₆, run⟩ := bind_ok run
  obtain ⟨env₁', run₄, same'⟩ := elaborateLets_indifferent same (fun l hl => (lets l hl).1)
    (fun l hl => (lets l hl).2) run₄
  rw [elaborate_indifferent (same'.mono result.1 result.2)] at run₆
  rw [ScopeBody.check, bind_run _ run₁, bind_run _ run₂, bind_run _ run₃, bind_run _ run₄]
  exact (bind_run _ run₅).trans ((bind_run _ run₆).trans run)

/-- An item that does not refer to what the environments differ in is found to be the same. -/
theorem item_indifferent {i j : Item Mark} {env₁ : Env}
    (same : Env.SameFor i.vars i.subScopes env env')
    (run : i.check decls env s = .ok ((j, env₁), t)) :
    i.check decls env' s = .ok ((j, bindItem decls env' j), t) := by
  obtain ⟨rfl, ⟨d, d', rfl, rfl, checked⟩ | ⟨c, b, rfl, rfl, checked⟩⟩ := item_ok run
  · obtain ⟨k, s₁, load, checked⟩ := bind_ok checked
    obtain ⟨e, s₂, elaborated, checked⟩ := bind_ok checked
    cases checked
    rw [elaborate_indifferent (same.mono (Item.exprs_subset List.mem_cons_self).1
      (Item.exprs_subset List.mem_cons_self).2)] at elaborated
    refine definition_run ?_
    rw [Definition.check, bind_run _ load, bind_run _ elaborated]
    rfl
  · obtain ⟨lets, result⟩ := List.forall_mem_append.mp
      (fun e he => Item.exprs_subset (i := .scope c) (e := e) he)
    have body : c.body.check decls env' c.span s = .ok (b, t) :=
      body_indifferent same (List.forall_mem_map.mp lets) (result _ List.mem_cons_self) checked
    rw [scope_run body]
    obtain ⟨input, output⟩ := body_records body
    simp only [bindItem, Scope.ty, input, output]

/-- A checked item is known by the names that it came with. -/
theorem item_names {i j : Item Mark} {env₁ : Env}
    (run : i.check decls env s = .ok ((j, env₁), t)) : j.var = i.var ∧ j.name? = i.name? := by
  obtain ⟨-, ⟨d, d', rfl, rfl, checked⟩ | ⟨c, b, rfl, rfl, -⟩⟩ := item_ok run
  · obtain ⟨k, s₁, load, checked⟩ := bind_ok checked
    obtain ⟨e, s₂, elaborated, checked⟩ := bind_ok checked
    cases checked
    exact ⟨rfl, rfl⟩
  · exact ⟨rfl, rfl⟩

theorem sameFor_bindItem {i : Item Mark} (hv : i.var ∉ vars) (hs : ∀ n ∈ i.name?, n ∉ scopes) :
    Env.SameFor vars scopes env (bindItem decls env i) := by
  cases i with
  | definition d =>
    refine ⟨fun {v} mem => ?_, rfl, fun _ => rfl⟩
    have ne : v ≠ d.var := by
      rintro rfl
      exact hv mem
    simp [bindItem, Env.bindVar, Env.var?, ne]
  | scope s =>
    refine ⟨fun {v} mem => ?_, rfl, fun {n} mem => ?_⟩
    · have ne : v ≠ s.var := by
        rintro rfl
        exact hv mem
      simp [bindItem, Env.bindVar, Env.bindScope, Env.var?, ne]
    · have ne : n ≠ s.name := by
        rintro rfl
        exact hs _ rfl mem
      simp [bindItem, Env.bindVar, Env.bindScope, ne]

theorem bindItem_comm {i j : Item Mark} (var_ne : i.var ≠ j.var)
    (name_ne : ∀ n ∈ i.name?, n ∉ j.name?) :
    bindItem decls (bindItem decls env i) j = bindItem decls (bindItem decls env j) i := by
  have vars (t u : Ty) : (env.vars.insert i.var t).insert j.var u =
      (env.vars.insert j.var u).insert i.var t := Dict.insert_comm _ var_ne t u
  cases i with
  | definition d => cases j <;> exact congrArg (Env.mk · _ _) (vars _ _)
  | scope s =>
    cases j with
    | definition d => exact congrArg (Env.mk · _ _) (vars _ _)
    | scope r =>
      have ne : s.name ≠ r.name := fun eq => name_ne s.name rfl (eq ▸ rfl)
      exact congrArg₂ (Env.mk · env.scopeVars ·) (vars _ _) (Dict.insert_comm _ ne _ _)

end Items

section Programs

variable {tracing : Bool} {i j : Item Mark} {is js : List (Item Mark)}

theorem checkItems_append {r₁ r₂ : List (Item Mark) × Env × List Step}
    (first : checkItems decls tracing env is = .ok r₁)
    (rest : checkItems decls tracing r₁.2.1 js = .ok r₂) :
    checkItems decls tracing env (is ++ js) = .ok (r₁.1 ++ r₂.1, r₂.2.1, r₁.2.2 ++ r₂.2.2) := by
  induction is generalizing env r₁ with
  | nil =>
    cases first
    exact rest
  | cons i is ih =>
    obtain ⟨i', env₁, s, r, here, later, rfl⟩ := checkItems_cons_ok first
    rw [List.cons_append, checkItems_cons here (ih later rest)]
    simp

theorem checkItems_length {r : List (Item Mark) × Env × List Step}
    (run : checkItems decls tracing env is = .ok r) : r.1.length = is.length := by
  induction is generalizing env r with
  | nil =>
    cases run
    rfl
  | cons i is ih =>
    obtain ⟨i', env₁, s, r₁, -, rest, rfl⟩ := checkItems_cons_ok run
    exact congrArg (· + 1) (ih rest)

/-- Two independent items at the front of a list change places. -/
theorem checkItems_swap (h : i.Independent j) {r : List (Item Mark) × Env × List Step}
    (run : checkItems decls tracing env (i :: j :: is) = .ok r) :
    ∃ i' j' is' steps, r.1 = i' :: j' :: is' ∧
      checkItems decls tracing env (j :: i :: is) = .ok (j' :: i' :: is', r.2.1, steps) := by
  obtain ⟨i', env₁, s₁, r₁, checkI, later, rfl⟩ := checkItems_cons_ok run
  obtain ⟨j', env₂, s₂, r₂, checkJ, rest, rfl⟩ := checkItems_cons_ok later
  obtain ⟨rfl, -⟩ := item_ok checkI
  obtain ⟨rfl, -⟩ := item_ok checkJ
  obtain ⟨varI, nameI⟩ := item_names checkI
  obtain ⟨varJ, nameJ⟩ := item_names checkJ
  have beforeI : j.check decls env (.empty tracing) = .ok ((j', bindItem decls env j'), s₂) :=
    item_indifferent (sameFor_bindItem (varI ▸ h.right.1) (nameI ▸ h.right.2)).symm checkJ
  have afterJ : i.check decls (bindItem decls env j') (.empty tracing) =
      .ok ((i', bindItem decls (bindItem decls env j') i'), s₁) :=
    item_indifferent (sameFor_bindItem (varJ ▸ h.left.1) (nameJ ▸ h.left.2)) checkI
  have ne : i'.var ≠ j'.var := by
    rw [varI, varJ]
    exact h.var_ne
  have names : ∀ n ∈ i'.name?, n ∉ j'.name? := by
    rw [nameI, nameJ]
    exact h.name_ne
  rw [bindItem_comm ne names] at rest
  exact ⟨i', j', r₂.1, _, rfl, checkItems_cons beforeI (checkItems_cons afterJ rest)⟩

/-- The same after any items. -/
theorem checkItems_swap_after (h : i.Independent j) {r : List (Item Mark) × Env × List Step}
    (run : checkItems decls tracing env (is ++ i :: j :: js) = .ok r) :
    ∃ is' i' j' js' steps, is'.length = is.length ∧ r.1 = is' ++ i' :: j' :: js' ∧
      checkItems decls tracing env (is ++ j :: i :: js) =
        .ok (is' ++ j' :: i' :: js', r.2.1, steps) := by
  obtain ⟨r₁, r₂, before, run₂, -⟩ := checkItems_append_ok run
  obtain ⟨i', j', js', steps, items, swapped⟩ := checkItems_swap h run₂
  obtain rfl := Except.ok.inj ((checkItems_append before run₂).symm.trans run)
  exact ⟨r₁.1, i', j', js', _, checkItems_length before, congrArg (r₁.1 ++ ·) items,
    checkItems_append before swapped⟩

/-- The program with two neighbours the other way round has types if it has, and then each of its
items has the same ones. -/
theorem check_swap (h : i.Independent j) {c : CheckedProgram}
    (run : Program.check ⟨decls, is ++ i :: j :: js⟩ tracing = .ok c) :
    ∃ is' i' j' js' steps, is'.length = is.length ∧
      c.program = ⟨decls, is' ++ i' :: j' :: js'⟩ ∧
      Program.check ⟨decls, is ++ j :: i :: js⟩ tracing =
        .ok ⟨⟨decls, is' ++ j' :: i' :: js'⟩, c.env, steps⟩ := by
  obtain ⟨r, items, rfl⟩ := program_check_iff.mp run
  obtain ⟨is', i', j', js', steps, length, eq, swapped⟩ := checkItems_swap_after h items
  refine ⟨is', i', j', js', steps, length, congrArg (Program.mk decls) eq, ?_⟩
  exact program_check_iff.mpr ⟨_, swapped, rfl⟩

end Programs

/-- The order of neighbouring items is free as long as neither refers to the other: a program checks
in one order just if it does in the other, and then the items and what is known after them are the
same. -/
theorem check_swap_iff (decls : Decls) (tracing : Bool) (before after : List (Item Mark))
    (i j : Item Mark) (independent : i.Independent j) :
    ((∃ c, Program.check ⟨decls, before ++ i :: j :: after⟩ tracing = .ok c) ↔
      ∃ d, Program.check ⟨decls, before ++ j :: i :: after⟩ tracing = .ok d) ∧
    ∀ c d, Program.check ⟨decls, before ++ i :: j :: after⟩ tracing = .ok c →
      Program.check ⟨decls, before ++ j :: i :: after⟩ tracing = .ok d →
      d.env = c.env ∧ ∃ before' i' j' after', before'.length = before.length ∧
        c.program = ⟨decls, before' ++ i' :: j' :: after'⟩ ∧
        d.program = ⟨decls, before' ++ j' :: i' :: after'⟩ := by
  refine ⟨⟨?_, ?_⟩, fun c d first second => ?_⟩
  · rintro ⟨c, checked⟩
    obtain ⟨_, _, _, _, _, _, _, swapped⟩ := check_swap independent checked
    exact ⟨_, swapped⟩
  · rintro ⟨d, checked⟩
    obtain ⟨_, _, _, _, _, _, _, swapped⟩ := check_swap independent.symm checked
    exact ⟨_, swapped⟩
  · obtain ⟨before', i', j', after', steps, length, items, swapped⟩ := check_swap independent first
    obtain rfl := Except.ok.inj (swapped.symm.trans second)
    exact ⟨rfl, before', i', j', after', length, items, rfl⟩

section Example

private def rate : Var := ⟨0, "rate"⟩

/-- A scope that returns the rate under the name of an amount. -/
private def feeScope (name : String) (var input : Var) : Item Mark :=
  .scope ⟨name, var, ⟨input, "Fee", "Fee", [], .record "Fee" [("amount", .var rate .blank)] .blank⟩,
    .synthetic⟩

private def feeTotal : Item Mark :=
  .definition ⟨⟨5, "total"⟩, .any, .app (.op (.add .int) .blank)
    [.location (.subScopeVar "Filing" "filing" "amount") .blank,
      .location (.subScopeVar "Copying" "copying" "amount") .blank] .blank, .synthetic⟩

/-- Two scopes that use what stands before them, and a definition that uses both by their names. -/
def fees (first second : Item Mark) : Program Mark where
  decls := ⟨.ofList [("Fee", .ofList [("amount", .int)])], ∅⟩
  items := [.definition ⟨rate, .any, .lit (.int 2) .blank, .synthetic⟩, first, second, feeTotal]

def filing : Item Mark := feeScope "Filing" ⟨1, "filing"⟩ ⟨2, "in"⟩

def copying : Item Mark := feeScope "Copying" ⟨3, "copying"⟩ ⟨4, "in"⟩

/-- In either order the rate and the total, which state no type, are found to be integers. -/
theorem fees_swap : filing.Independent copying ∧
    ∃ c d, (fees filing copying).check true = .ok c ∧ (fees copying filing).check true = .ok d ∧
      d.env = c.env ∧ c.program.types = [.int, .int] ∧
      ∃ r i' j' t, r.length = 1 ∧ c.program.items = r ++ i' :: j' :: t ∧
        d.program.items = r ++ j' :: i' :: t := by
  have independent : filing.Independent copying :=
    ⟨by decide, by decide, by decide, by decide⟩
  have found : ((fees filing copying).check true).toOption.map (·.program.types) =
      some [.int, .int] := by decide +kernel
  obtain ⟨c, checked, types⟩ := Option.map_eq_some_iff.mp found
  have checked := toOption_eq_some.mp checked
  obtain ⟨iff, same⟩ := check_swap_iff _ true [_] [_] filing copying independent
  obtain ⟨d, swapped⟩ := iff.mp ⟨c, checked⟩
  obtain ⟨env, r, i', j', t, length, items, items'⟩ := same c d checked swapped
  exact ⟨independent, c, d, checked, swapped, env, types, r, i', j', t, length,
    congrArg Program.items items, congrArg Program.items items'⟩

end Example

end Typing

end Ordinance
