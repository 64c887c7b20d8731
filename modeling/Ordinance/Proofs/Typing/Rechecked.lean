import Ordinance.Proofs.Typing.Exact
import Ordinance.Proofs.Typing.Locations

namespace Ordinance.Typing

variable {decls : Decls} {env env' : Env} {Γ Δ : Dict Var Ty} {s t : Store} {φ : Class → Ty}
  {locals : Locals} {ls : List (ScopeLet Mark)} {u : Ty}

section Lets

/-- The local definition comes out as `l`, as far as `ψ` reads the store. -/
structure Regained (decls : Decls) (s : Store) (ψ : Class → Ty) (p : PendingLet) (l : ScopeLet Mark) :
    Prop where
  source : p.source = l
  records : Records s ψ p.expr l.expr
  typed : ∃ env Γ, HasTy Eq decls env Γ l.expr l.ty

theorem Extends.regained {ψ : Class → Ty} {p : PendingLet} {l : ScopeLet Mark}
    (ext : Extends s φ t ψ) (h : Regained decls s φ p l) : Regained decls t ψ p l :=
  ⟨h.source, ext.records h.records, h.typed⟩

theorem Regained.finish {p : PendingLet} {l : ScopeLet Mark} (h : Regained decls s φ p l)
    (model : s.Model φ) : (p.finish s).Admits l := by
  obtain ⟨source, records, env, Γ, typed⟩ := h
  have ty : (s.resolve p.expr.mark.cls).Admits l.ty :=
    (records.reads typed).2 ▸ model.resolve_admits _
  exact ⟨congrArg (·.var) source, congrArg (·.role) source, congrArg (·.span) source, ty,
    finish_admits model typed records⟩

/-- Local definitions that are found as they are. The types by which they are known on the way are
those in which they end. -/
theorem lets_again (h : LetsFound decls env Γ ls ls env' Δ) (reads : Reads φ s locals none Γ u) :
    Completes φ s (elaborateLets decls env locals ls) fun r t ψ =>
      List.Forall₂ (Regained decls t ψ) r.1 ls ∧ r.2.1 = env' ∧ Reads ψ t r.2.2 none Δ u := by
  induction ls generalizing s φ env locals Γ with
  | nil =>
    cases h
    exact .pure reads.wf reads.model ⟨.nil, rfl, reads⟩
  | cons l ls ih =>
    cases h with
    | cons _ first last typed rest =>
      refine .bind ((load_completes reads.wf reads.model (.refl l.ty)).sound fun χ =>
        load_sound reads.wf l.ty) fun c s₁ φ₁ ext₁ hc => ?_
      obtain ⟨hc, loaded⟩ := hc
      have reads := reads.later ext₁
      refine .bind (elaborate_complete l.expr typed (.refl l.expr) (reads.check hc))
        fun e s₂ φ₂ ext₂ records => ?_
      have reads := reads.later ext₂
      have hc := ext₂.carry hc
      refine .bind (get_completes reads.wf reads.model) fun s₃ s₄ φ₃ ext₃ same => ?_
      subst same
      have reads := reads.later ext₃
      have hc := ext₃.carry hc
      -- What is asked for bounds the type found so far on one side, the reading on the other.
      have now : s₃.resolve c = l.ty := by
        have above : (s₃.resolve c).Admits l.ty := hc.2 ▸ ext₃.model.resolve_admits c
        have le : s₁.Le s₃ := ext₂.le.trans ext₂.wf ext₃.le
        exact above.antisymm (loaded _ (ext₃.wf.model_resolve.of_le ext₁.wf le))
      rw [last.antisymm first, ← now] at rest
      have reads := reads.bind [l.var] (List.forall_mem_singleton.mpr hc.1)
      rw [List.map_singleton, hc.2, ← now] at reads
      refine .bind (ih rest reads) fun r s₅ φ₄ ext₄ hr => ?_
      refine .pure ext₄.wf ext₄.model ⟨.cons ?_ hr.1, hr.2⟩
      exact ext₄.regained (ext₃.regained ⟨rfl, records, env, Γ, typed⟩)

end Lets

section Items

variable {d : Definition Mark} {b : ScopeBody Mark} {span : Span}

theorem definition_again (ordered : d.expr.Ordered) (typed : HasTy Eq decls env ∅ d.expr d.ty)
    (tracing : Bool) :
    ∃ s, d.check decls env (.empty tracing) = .ok ((d, env.bindVar d.var d.ty), s) := by
  obtain ⟨⟨v, w, e, span⟩, s, run, ty, expr⟩ :=
    definition_completes typed (.refl d.expr) (.refl d.ty) tracing
  obtain ⟨_, _, var, sameSpan, ty', expr'⟩ :=
    definition_typed ordered (Store.empty_wf tracing) run
  obtain rfl : d.var = v := var
  obtain rfl : d.span = span := sameSpan
  obtain rfl : d.ty = w := ty'.antisymm ty
  obtain rfl : d.expr = e := expr'.antisymm expr
  exact ⟨s, run⟩

/-- A body that is found as it is has a run, which gives types that it is an instance of. -/
theorem body_again (h : BodyFound decls env b b) (span : Span) (tracing : Bool) :
    ∃ b' s, b.check decls env span (.empty tracing) = .ok (b', s) ∧ b'.Admits b := by
  obtain ⟨_, ⟨_, input⟩, ⟨_, output⟩, env', Γ, lets, result⟩ := h
  have start := reads_empty tracing (.struct b.output)
  have run : Completes (Store.empty tracing).resolve (.empty tracing) (b.check decls env span)
      fun b' _ _ => b'.Admits b := by
    refine .bind (resolved_completes input start.wf start.model) fun _ s₁ φ₁ ext₁ _ => ?_
    refine .bind (resolved_completes output ext₁.wf ext₁.model) fun _ s₂ φ₂ ext₂ _ => ?_
    refine .bind (alloc_completes ext₂.wf ext₂.model (by simp [Shape.parts])
      (u := .struct b.input) fun _ => rfl) fun c s₃ φ₃ ext₃ hc => ?_
    have reads := (((start.later ext₁).later ext₂).later ext₃).bind [b.inputVar]
      (List.forall_mem_singleton.mpr hc.1)
    rw [List.map_singleton, hc.2] at reads
    refine .bind (lets_again lets reads) fun r s₄ φ₄ ext₄ hr => ?_
    obtain ⟨regained, known, reads⟩ := hr
    refine .bind (alloc_completes reads.wf reads.model (by simp [Shape.parts])
      (u := .struct b.output) fun _ => rfl) fun d s₅ φ₅ ext₅ hd => ?_
    rw [← known] at result
    refine .bind (elaborate_complete b.result result (.refl b.result) ((reads.later ext₅).check hd))
      fun e s₆ φ₆ ext₆ records => ?_
    refine .bind (get_completes ext₆.wf ext₆.model) fun s₇ s₈ φ₇ ext₇ same => ?_
    subst same
    have ext := ext₅.trans (ext₆.trans ext₇)
    refine .pure ext₇.wf ext₇.model ⟨rfl, rfl, rfl, ?_, ?_⟩
    · exact List.forall₂_map_left_iff.mpr
        (regained.imp fun p l h => (ext.regained h).finish ext.model)
    · exact finish_admits ext₇.model result (ext₇.records records)
  obtain ⟨b', s, _, run, _, admits⟩ := run
  exact ⟨b', s, run, admits⟩

/-- The bodies that the checker leaves as they are. -/
theorem body_fixed_iff (lets : ∀ l ∈ b.lets, l.expr.Ordered) (result : b.result.Ordered)
    (tracing : Bool) :
    (∃ s, b.check decls env span (.empty tracing) = .ok (b, s)) ↔ BodyFound decls env b b := by
  constructor
  · rintro ⟨s, run⟩
    exact body_found lets result (Store.empty_wf tracing) run
  · intro found
    obtain ⟨b', s, run, back⟩ := body_again found span tracing
    have there : b.Admits b' := (body_found lets result (Store.empty_wf tracing) run).admits
    obtain rfl : b = b' := there.antisymm back
    exact ⟨s, run⟩

variable {i j : Item Mark} {is : List (Item Mark)} {r : List (Item Mark) × Env × List Step}
  {tracing : Bool}

/-- An item that has been checked is left as it is just if its locations fit. -/
theorem item_fixed_iff (ordered : ∀ e ∈ i.exprs, e.Ordered) (top : env.scopeVars = ∅)
    (run : i.check decls env (.empty tracing) = .ok ((j, env'), s)) (again : Bool) :
    (∃ t, j.check decls env (.empty again) = .ok ((j, env'), t)) ↔ j.LocationsFit := by
  obtain ⟨rfl, ⟨d, d', rfl, rfl, first⟩ | ⟨c, b, rfl, rfl, first⟩⟩ := item_ok run
  · obtain ⟨typed, _, admits⟩ :=
      definition_typed (ordered _ List.mem_cons_self) (Store.empty_wf tracing) first
    have ordered' := admits.ordered ordered d'.expr List.mem_cons_self
    obtain ⟨t, second⟩ := definition_again ordered' typed again
    exact iff_of_true ⟨t, definition_run second⟩ trivial
  · obtain ⟨lets, result⟩ := List.forall_mem_append.mp ordered
    have found : BodyFound decls env c.body b := body_found (List.forall_mem_map.mp lets)
      (List.forall_mem_singleton.mp result) (Store.empty_wf tracing) first
    have admits : (Item.scope c).Admits (.scope { c with body := b }) :=
      ⟨rfl, rfl, rfl, found.admits⟩
    obtain ⟨lets', result'⟩ := List.forall_mem_append.mp (admits.ordered ordered)
    change _ ↔ ScopeBody.LetsFit ∅ b.lets b.result
    rw [← top, ← found.again_iff, ← body_fixed_iff (List.forall_mem_map.mp lets')
      (List.forall_mem_singleton.mp result') again]
    constructor
    · rintro ⟨t, second⟩
      obtain ⟨_, ⟨_, _, absurd, _, _⟩ | ⟨c', b', here, out, second⟩⟩ := item_ok second
      · cases absurd
      · cases here
        cases out
        exact ⟨t, second⟩
    · rintro ⟨t, second⟩
      exact ⟨t, scope_run second⟩

theorem item_locationsFit (ordered : ∀ e ∈ i.exprs, e.Ordered) (top : env.scopeVars = ∅)
    (run : i.check decls env (.empty tracing) = .ok ((j, env'), s)) (stated : i.StatesTypes) :
    j.LocationsFit := by
  obtain ⟨_, ⟨d, d', rfl, rfl, first⟩ | ⟨c, b, rfl, rfl, first⟩⟩ := item_ok run
  · trivial
  · obtain ⟨lets, result⟩ := List.forall_mem_append.mp ordered
    have found := body_found (List.forall_mem_map.mp lets) (List.forall_mem_singleton.mp result)
      (Store.empty_wf tracing) first
    obtain ⟨_, _, lets, result⟩ := found.lets
    have fit := lets.locationsFit result stated
    rwa [top] at fit

/-- The same for items in order. Checking again, an item sees what it saw the first time. -/
theorem items_fixed_iff (ordered : ∀ i ∈ is, ∀ e ∈ i.exprs, e.Ordered) (top : env.scopeVars = ∅)
    (run : checkItems decls tracing env is = .ok r) (again : Bool) :
    (∃ trace, checkItems decls again env r.1 = .ok (r.1, r.2.1, trace)) ↔
      ∀ j ∈ r.1, j.LocationsFit := by
  induction is generalizing env r with
  | nil =>
    cases run
    exact iff_of_true ⟨[], rfl⟩ (by simp)
  | cons i is ih =>
    obtain ⟨ordered, ordereds⟩ := List.forall_mem_cons.mp ordered
    obtain ⟨j, env₁, s, r₁, first, rest, rfl⟩ := checkItems_cons_ok run
    have known : env₁ = bindItem decls env j := (item_ok first).1
    have top₁ : env₁.scopeVars = ∅ := by rw [known, scopeVars_bindItem, top]
    rw [List.forall_mem_cons, ← item_fixed_iff ordered top first again, ← ih ordereds top₁ rest]
    constructor
    · rintro ⟨trace, second⟩
      obtain ⟨j', env₂, t, r₂, secondFirst, secondRest, same⟩ := checkItems_cons_ok second
      obtain ⟨⟨rfl, items⟩, env_eq, _⟩ : (j = j' ∧ r₁.1 = r₂.1) ∧ r₁.2.1 = r₂.2.1 ∧ _ := by
        simpa using same
      obtain rfl : env₁ = env₂ := known.trans (item_ok secondFirst).1.symm
      rw [items, env_eq]
      rw [items] at secondRest
      exact ⟨⟨t, secondFirst⟩, r₂.2.2, secondRest⟩
    · rintro ⟨⟨t, secondFirst⟩, trace, secondRest⟩
      exact ⟨_, checkItems_cons (r := (r₁.1, r₁.2.1, trace)) secondFirst secondRest⟩

theorem items_locationsFit (ordered : ∀ i ∈ is, ∀ e ∈ i.exprs, e.Ordered)
    (top : env.scopeVars = ∅) (run : checkItems decls tracing env is = .ok r)
    (stated : ∀ i ∈ is, i.StatesTypes) : ∀ j ∈ r.1, j.LocationsFit := by
  induction is generalizing env r with
  | nil =>
    cases run
    simp
  | cons i is ih =>
    obtain ⟨ordered, ordereds⟩ := List.forall_mem_cons.mp ordered
    obtain ⟨stated, stateds⟩ := List.forall_mem_cons.mp stated
    obtain ⟨j, env₁, s, r₁, first, rest, rfl⟩ := checkItems_cons_ok run
    have top₁ : env₁.scopeVars = ∅ := by rw [(item_ok first).1, scopeVars_bindItem, top]
    exact List.forall_mem_cons.mpr
      ⟨item_locationsFit ordered top first stated, ih ordereds top₁ rest stateds⟩

end Items

/-- Checking a program that has been checked gives it back, with what a next item would see, just if
its locations are recorded at instances of the types in which their variables end; and that is so
where the variables of scopes come with their types. -/
theorem program_fixed_iff (p : Program Mark) (tracing again : Bool) (c : CheckedProgram)
    (ordered : ∀ e ∈ p.exprs, e.Ordered) (checked : p.check tracing = .ok c) :
    ((∃ trace, c.program.check again = .ok ⟨c.program, c.env, trace⟩) ↔ c.program.LocationsFit) ∧
      ((∀ i ∈ p.items, i.StatesTypes) → c.program.LocationsFit) := by
  obtain ⟨r, items, rfl⟩ := program_check_iff.mp checked
  have ordered : ∀ i ∈ p.items, ∀ e ∈ i.exprs, e.Ordered := fun i hi e he =>
    ordered e (List.mem_flatMap.mpr ⟨i, hi, he⟩)
  refine ⟨?_, items_locationsFit ordered rfl items⟩
  rw [Program.LocationsFit, ← items_fixed_iff ordered rfl items again]
  refine exists_congr fun trace => ?_
  rw [program_check_iff]
  constructor
  · rintro ⟨r', second, same⟩
    obtain ⟨items_eq, env_eq, trace_eq⟩ : r.1 = r'.1 ∧ r.2.1 = r'.2.1 ∧ trace = r'.2.2 := by
      simpa using same
    rw [second, items_eq, env_eq, trace_eq]
  · intro second
    exact ⟨_, second, rfl⟩

/-- A scope that sets `granted` to `amount`, asserts it by name, and returns it as a field of type
`t`. -/
def granting (amount : Literal ⊕ Exn) (t : Ty) : Program Mark where
  decls :=
    { structs := .ofList [("Request", ∅), ("Grant", .ofList [("granted", t)])]
      enums := ∅ }
  items :=
    let m : Mark := .blank
    let granted : Var := ⟨2, "granted"⟩
    let body : ScopeBody Mark :=
      { inputVar := ⟨1, "request"⟩, input := "Request", output := "Grant"
        lets :=
          [⟨granted, .definition, .any, amount.elim (.lit · m) (.raise · m), m.span⟩,
            ⟨⟨3, "holds"⟩, .assertion, .any, .assert (.location (.scopeVar "granted") m) m, m.span⟩]
        result := .record "Grant" [("granted", .var granted m)] m }
    [.scope ⟨"Granting", ⟨0, "granting"⟩, body, m.span⟩]

/-- The type of a literal is known before the assertion. -/
theorem granting_fixed : (∀ e ∈ (granting (.inl (.bool true)) .bool).exprs, e.Ordered) ∧
    ∃ c, (granting (.inl (.bool true)) .bool).check false = .ok c ∧ c.program.LocationsFit ∧
      ∃ trace, c.program.check true = .ok ⟨c.program, c.env, trace⟩ := by
  have ordered : ∀ e ∈ (granting (.inl (.bool true)) .bool).exprs, e.Ordered := by decide +kernel
  have found : ((granting (.inl (.bool true)) .bool).check false).toOption.map
      (decide ·.program.LocationsFit) = some true := by decide +kernel
  obtain ⟨c, checked, fit⟩ := Option.map_eq_some_iff.mp found
  have checked := toOption_eq_some.mp checked
  have fit := of_decide_eq_true fit
  exact ⟨ordered, c, checked, fit, (program_fixed_iff _ false true c ordered checked).1.mpr fit⟩

/-- The type of an exception is open at the assertion, which takes it for a boolean, and is found to
be an integer only by the result. -/
theorem granting_refused : ∃ c error, (granting (.inr .empty) .int).check false = .ok c ∧
    c.program.check false = .error error := by
  have found : ((granting (.inr .empty) .int).check false).toOption.map
      (fun c => (c.program.check false).toOption.isNone) = some true := by decide +kernel
  obtain ⟨c, checked, refused⟩ := Option.map_eq_some_iff.mp found
  have checked := toOption_eq_some.mp checked
  cases second : c.program.check false with
  | error error => exact ⟨c, error, checked, second⟩
  | ok c' => simp [second, Except.toOption] at refused

end Ordinance.Typing
