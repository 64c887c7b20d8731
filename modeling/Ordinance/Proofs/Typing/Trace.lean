import Mathlib.Logic.Relation
import Ordinance.Proofs.Store.Trace
import Ordinance.Proofs.Typing.Program
import Ordinance.Samples

namespace Ordinance.Typing

/-- What elaboration does to a store: it makes a class, or unifies two classes with success. -/
inductive Advance : Store → Store → Prop
  | alloc (shape : Shape Class) (span : Span) (s : Store) : Advance s (Store.alloc shape span s).2
  | unify {s t : Store} {a b : Class} : s.unify a b = (.ok (), t) → Advance s t

abbrev Advances : Store → Store → Prop := Relation.ReflTransGen Advance

variable {α β : Type} {s t : Store}

/-- A run that succeeds has done nothing else: no failure of unification was passed over. -/
def Steady (x : TypeM α) : Prop := ∀ s a t, x s = .ok (a, t) → Advances s t

namespace Steady

theorem pure (a : α) : Steady (pure a) := by
  intro s b t run
  cases run
  exact .refl

theorem bind {x : TypeM α} {f : α → TypeM β} (hx : Steady x) (hf : ∀ a, Steady (f a)) :
    Steady (x >>= f) := by
  intro s b u run
  obtain ⟨a, t, first, rest⟩ := bind_ok run
  exact (hx s a t first).trans (hf a t b u rest)

theorem fail (fault : Fault) (span : Span) : Steady (fail fault span : TypeM α) := by
  intro s a t run
  cases run

theorem get : Steady (MonadStateOf.get : TypeM Store) := by
  intro s a t run
  cases run
  exact .refl

/-- A computation that only makes classes. -/
theorem modify {x : StateM Store α} (h : ∀ s, Advances s (x s).2) :
    Steady (modifyGet x : TypeM α) := by
  intro s a t run
  have advances := h s
  rwa [show x s = (a, t) from Except.ok.inj run] at advances

end Steady

section Steps

theorem advances_alloc (shape : Shape Class) (span : Span) (h : Advances s t) :
    Advances s (Store.alloc shape span t).2 := h.tail (.alloc shape span t)

theorem alloc_steady (shape : Shape Class) (span : Span) : Steady (alloc shape span) :=
  .modify fun _ => advances_alloc shape span .refl

theorem advances_load (t : Ty) (span : Span) (s : Store) : Advances s (Store.load span t s).2 :=
  (Store.load_made (fun _ shape span h _ => advances_alloc shape span h) t .refl).keeps

theorem load_steady (t : Ty) (span : Span) : Steady (load t span) := .modify (advances_load t span)

theorem loadAll_steady (ts : List Ty) (span : Span) : Steady (loadAll ts span) := by
  induction ts with
  | nil => exact .pure []
  | cons t ts ih => exact (load_steady t span).bind fun c => ih.bind fun cs => .pure (c :: cs)

theorem instantiate_steady {o : Op} {shapes : List (Shape Nat)} (h : o.signature = some shapes)
    (span : Span) : Steady (modifyGet (Store.instantiate shapes span)) :=
  .modify fun _ => Store.foldlM_alloc (fun _ shape span h _ => advances_alloc shape span h) .refl rfl
    (signature_before h)

theorem shapeOf_steady (c : Class) : Steady (shapeOf c) := Steady.get.bind fun _ => .pure _

theorem unify_steady (a b : Class) (span : Span) : Steady (unify a b span) := by
  intro s x t run
  exact .single (.unify (Store.unify_eq_ok.mpr (unify_run.mp run)))

theorem resolved_steady (found : Option α) (kind : NameKind) (name : String) (span : Span) :
    Steady (resolved found kind name span) := by
  cases found with
  | some a => exact .pure a
  | none => exact .fail _ span

theorem counted_steady (what : String) (expected got : Nat) (span : Span) :
    Steady (counted what expected got span) := by
  unfold counted
  split
  · exact .pure ()
  · exact .fail _ span

theorem writtenClass_steady (m : Mark) : Steady (writtenClass m) := by
  unfold writtenClass
  split
  · exact .pure none
  · exact (load_steady m.ty m.span).bind fun c => .pure (some c)

theorem announce_steady (goal : Option Class) (m : Mark) : Steady (announce goal m) := by
  cases goal with
  | none => exact .pure ()
  | some g =>
    refine (writtenClass_steady m).bind fun c => ?_
    cases c with
    | none => exact .pure ()
    | some c => exact unify_steady g c m.span

theorem conclude_steady (goal : Option Class) (c : Class) (m : Mark) :
    Steady (conclude goal c m) := by
  cases goal with
  | some g => exact .pure _
  | none =>
    refine (writtenClass_steady m).bind fun a => ?_
    cases a with
    | none => exact .pure _
    | some a => exact (unify_steady a c m.span).bind fun _ => .pure _

theorem settle_steady (goal : Option Class) (c : Class) (m : Mark) : Steady (settle goal c m) := by
  cases goal with
  | none => exact conclude_steady none c m
  | some g => exact (unify_steady g c m.span).bind fun _ => conclude_steady (some g) c m

theorem goalOrNew_steady (goal : Option Class) (span : Span) : Steady (goalOrNew goal span) := by
  cases goal with
  | some g => exact .pure g
  | none => exact alloc_steady .any span

theorem goalShape_steady (goal : Option Class) : Steady (goalShape goal) := by
  cases goal with
  | some g => exact shapeOf_steady g
  | none => exact .pure _

theorem binders_steady (params : List Var) (tys : List Ty) (span : Span) :
    Steady (binders params tys span) :=
  (counted_steady _ _ _ span).bind fun _ => loadAll_steady tys span

theorem unifyEach_steady (pairs : List (Class × Class)) (span : Span) :
    Steady (unifyEach span pairs) := by
  induction pairs with
  | nil => exact .pure ()
  | cons x pairs ih => exact (unify_steady x.1 x.2 span).bind fun _ => ih

theorem varClass_steady (env : Env) (locals : Locals) (v : Var) (span : Span) :
    Steady (varClass env locals v span) := by
  unfold varClass
  split
  · exact .pure _
  · exact (resolved_steady _ _ _ span).bind fun t => load_steady t span

theorem locationType_steady (env : Env) (span : Span) (l : Location) :
    Steady (locationType env span l) := by
  cases l <;> exact resolved_steady _ _ _ span

theorem allocMany_steady (n : Nat) (span : Span) : Steady (allocMany span n) := by
  induction n with
  | zero => exact .pure []
  | succ n ih => exact (alloc_steady .any span).bind fun c => ih.bind fun cs => .pure (c :: cs)

theorem loadCases_steady (cases : List (String × Ty)) (span : Span) :
    Steady (loadCases span cases) := by
  induction cases with
  | nil => exact .pure []
  | cons x cases ih =>
    exact (load_steady x.2 span).bind fun c => ih.bind fun cs => .pure ((x.1, c) :: cs)

theorem enumClasses_steady (decls : Decls) (enum : String) (span : Span) :
    Steady (enumClasses decls enum span) := by
  unfold enumClasses
  split
  · exact (alloc_steady .any span).bind fun _ => (alloc_steady _ span).bind fun _ =>
      (alloc_steady _ span).bind fun _ => .pure _
  · exact (resolved_steady _ _ _ span).bind fun layout =>
      (loadCases_steady _ span).bind fun _ => (alloc_steady _ span).bind fun _ => .pure _

end Steps

section Expressions

variable {decls : Decls} {env : Env} {locals : Locals}

/-- The expression is elaborated steadily, whatever is known and asked for. -/
def Steadily (e : Expr Mark) : Prop :=
  ∀ decls env locals goal, Steady (elaborate decls env locals goal e)

theorem elaborateEach_steady {es : List (Expr Mark)} (h : ∀ e ∈ es, Steadily e)
    (goals : List (Option Class)) : Steady (elaborateEach decls env locals goals es) := by
  induction es generalizing goals with
  | nil => exact .pure []
  | cons e es ih =>
    obtain ⟨head, tail⟩ := List.forall_mem_cons.mp h
    exact (head _ _ _ _).bind fun e => (ih tail _).bind fun es => .pure (e :: es)

theorem elaborateNamed_steady {es : List (String × Expr Mark)} (h : ∀ e ∈ es.map (·.2), Steadily e)
    {expected : String → Span → TypeM Class} (he : ∀ name span, Steady (expected name span)) :
    Steady (elaborateNamed decls env locals expected es) := by
  induction es with
  | nil => exact .pure []
  | cons x es ih =>
    obtain ⟨head, tail⟩ := List.forall_mem_cons.mp h
    obtain ⟨name, e⟩ := x
    exact (he name _).bind fun c => (head _ _ _ _).bind fun e => (ih tail).bind fun es =>
      .pure ((name, e) :: es)

section Nodes

variable {e : Expr Mark} {es : List (Expr Mark)} {m : Mark}

theorem tuple_steady (h : ∀ e ∈ es, Steadily e) : Steadily (.tuple es m) := by
  intro decls env locals goal
  refine (announce_steady goal m).bind fun _ => (goalShape_steady goal).bind fun p => ?_
  split
  · exact (elaborateEach_steady h _).bind fun es => .pure _
  · refine (elaborateEach_steady h _).bind fun es => (alloc_steady _ m.span).bind fun c => ?_
    exact (settle_steady _ c m).bind fun p => .pure _

theorem component_steady {index size : Nat} (h : Steadily e) :
    Steadily (.component e index size m) := by
  intro decls env locals goal
  refine (announce_steady goal m).bind fun _ => ?_
  split
  · refine (allocMany_steady size m.span).bind fun cs => (alloc_steady _ m.span).bind fun c => ?_
    refine (h decls env locals (some c)).bind fun e => (settle_steady goal _ m).bind fun p => ?_
    exact .pure _
  · exact .fail _ m.span

theorem record_steady {struct : String} {fields : List (String × Expr Mark)}
    (h : ∀ e ∈ fields.map (·.2), Steadily e) : Steadily (.record struct fields m) := by
  intro decls env locals goal
  refine (announce_steady goal m).bind fun _ => (resolved_steady _ _ _ m.span).bind fun layout => ?_
  refine (elaborateNamed_steady h fun name span => ?_).bind fun fields => ?_
  · exact (resolved_steady _ _ _ span).bind fun t => load_steady t span
  refine (counted_steady _ _ _ m.span).bind fun _ => (alloc_steady _ m.span).bind fun c => ?_
  exact (settle_steady goal c m).bind fun p => .pure _

theorem field_steady {struct name : String} (h : Steadily e) :
    Steadily (.field e struct name m) := by
  intro decls env locals goal
  refine (announce_steady goal m).bind fun _ => (resolved_steady _ _ _ m.span).bind fun layout => ?_
  refine (resolved_steady _ _ _ m.span).bind fun t => (alloc_steady _ m.span).bind fun c => ?_
  refine (h decls env locals (some c)).bind fun e => (load_steady t m.span).bind fun c => ?_
  exact (settle_steady goal c m).bind fun p => .pure _

theorem inject_steady {enum ctor : String} (h : Steadily e) :
    Steadily (.inject enum ctor e m) := by
  intro decls env locals goal
  have last (e : Expr Pending) (c : Class) :
      Steady (settle goal c m >>= fun p => pure (Expr.inject enum ctor e p)) :=
    (settle_steady goal c m).bind fun p => .pure _
  refine (announce_steady goal m).bind fun _ => ?_
  split
  · split
    · refine (alloc_steady _ m.span).bind fun c => (h decls env locals (some c)).bind fun e => ?_
      refine (alloc_steady _ m.span).bind fun c => (alloc_steady _ m.span).bind fun c => ?_
      exact last e c
    · split
      · refine (goalShape_steady goal).bind fun p => ?_
        split
        · exact (h decls env locals _).bind fun e => .pure _
        · refine (h decls env locals none).bind fun e => (alloc_steady _ m.span).bind fun c => ?_
          exact last e c
      · exact .fail _ m.span
  · refine (resolved_steady _ _ _ m.span).bind fun layout => ?_
    refine (resolved_steady _ _ _ m.span).bind fun t => (load_steady t m.span).bind fun c => ?_
    refine (h decls env locals (some c)).bind fun e => (alloc_steady _ m.span).bind fun c => ?_
    exact last e c

theorem switch_steady {enum : String} {cases : List (String × Expr Mark)} (he : Steadily e)
    (hcases : ∀ e ∈ cases.map (·.2), Steadily e) : Steadily (.switch e enum cases m) := by
  intro decls env locals goal
  refine (announce_steady goal m).bind fun _ => (goalOrNew_steady goal m.span).bind fun r => ?_
  refine (enumClasses_steady decls enum m.span).bind fun payloads => ?_
  refine (he decls env locals _).bind fun e => ?_
  refine (elaborateNamed_steady hcases fun name span => ?_).bind fun cases => ?_
  · exact (resolved_steady _ _ _ span).bind fun payload => alloc_steady _ span
  refine (counted_steady _ _ _ m.span).bind fun _ => ?_
  exact (conclude_steady goal r m).bind fun p => .pure _

theorem op_steady {o : Op} : Steadily (.op o m) := by
  intro decls env locals goal
  refine (announce_steady goal m).bind fun _ => ?_
  split
  next shapes signature =>
    refine (instantiate_steady signature m.span).bind fun c => ?_
    exact (settle_steady goal c m).bind fun p => .pure _
  next => exact .fail _ m.span

theorem app_steady {f : Expr Mark} (hf : Steadily f) (h : ∀ e ∈ es, Steadily e) :
    Steadily (.app f es m) := by
  intro decls env locals goal
  refine (announce_steady goal m).bind fun _ => (hf decls env locals none).bind fun f => ?_
  refine (shapeOf_steady _).bind fun p => ?_
  split
  · refine (counted_steady _ _ _ m.span).bind fun _ => (elaborateEach_steady h _).bind fun args => ?_
    exact (settle_steady goal _ m).bind fun p => .pure _
  · refine (elaborateEach_steady h _).bind fun args => (alloc_steady _ m.span).bind fun r => ?_
    refine (alloc_steady _ m.span).bind fun c => (unify_steady _ c m.span).bind fun _ => ?_
    exact (settle_steady goal r m).bind fun p => .pure _

theorem lam_steady {params : List Var} {tys : List Ty} (h : Steadily e) :
    Steadily (.lam params tys e m) := by
  intro decls env locals goal
  refine (announce_steady goal m).bind fun _ => (goalShape_steady goal).bind fun p => ?_
  split
  · refine (counted_steady _ _ _ m.span).bind fun _ => ?_
    refine (binders_steady params tys m.span).bind fun cs => ?_
    refine (unifyEach_steady _ m.span).bind fun _ => (h decls env _ _).bind fun body => ?_
    exact .pure _
  · refine (binders_steady params tys m.span).bind fun cs => (h decls env _ none).bind fun body => ?_
    refine (alloc_steady _ m.span).bind fun c => (settle_steady _ c m).bind fun p => ?_
    exact .pure _

theorem default_steady {just cons : Expr Mark} (h : ∀ e ∈ es, Steadily e) (hj : Steadily just)
    (hc : Steadily cons) : Steadily (.default es just cons m) := by
  intro decls env locals goal
  refine (announce_steady goal m).bind fun _ => (hc decls env locals goal).bind fun cons => ?_
  refine (elaborateEach_steady h _).bind fun es => (alloc_steady _ _).bind fun bool => ?_
  refine (hj decls env locals _).bind fun just => (conclude_steady goal _ m).bind fun p => ?_
  exact .pure _

theorem rescue_steady {handler : Expr Mark} {x : Exn} (he : Steadily e) (hh : Steadily handler) :
    Steadily (.rescue e x handler m) := by
  intro decls env locals goal
  refine (announce_steady goal m).bind fun _ => (he decls env locals goal).bind fun body => ?_
  refine (hh decls env locals _).bind fun handler => (conclude_steady goal _ m).bind fun p => ?_
  exact .pure _

theorem force_steady (h : Steadily e) : Steadily (.force e m) := by
  intro decls env locals goal
  refine (announce_steady goal m).bind fun _ => (h decls env locals goal).bind fun e => ?_
  exact (conclude_steady goal _ m).bind fun p => .pure _

theorem array_steady (h : ∀ e ∈ es, Steadily e) : Steadily (.array es m) := by
  intro decls env locals goal
  refine (announce_steady goal m).bind fun _ => (alloc_steady _ m.span).bind fun item => ?_
  split
  · refine (alloc_steady _ m.span).bind fun c => (unify_steady _ c m.span).bind fun _ => ?_
    exact (elaborateEach_steady h _).bind fun es => .pure _
  · refine (elaborateEach_steady h _).bind fun es => (alloc_steady _ m.span).bind fun c => ?_
    exact (conclude_steady _ c m).bind fun p => .pure _

theorem ite_steady {yes no : Expr Mark} (hc : Steadily e) (hy : Steadily yes) (hn : Steadily no) :
    Steadily (.ite e yes no m) := by
  intro decls env locals goal
  refine (announce_steady goal m).bind fun _ => (alloc_steady _ _).bind fun bool => ?_
  refine (hc decls env locals _).bind fun cond => (hy decls env locals goal).bind fun yes => ?_
  refine (hn decls env locals _).bind fun no => (conclude_steady goal _ m).bind fun p => ?_
  exact .pure _

theorem assert_steady (h : Steadily e) : Steadily (.assert e m) := by
  intro decls env locals goal
  refine (announce_steady goal m).bind fun _ => (alloc_steady _ _).bind fun bool => ?_
  refine (h decls env locals _).bind fun e => (alloc_steady _ m.span).bind fun c => ?_
  exact (settle_steady goal c m).bind fun p => .pure _

end Nodes

theorem elaborate_steady (e : Expr Mark) : Steadily e := by
  induction e using Expr.induct with
  | node e ih =>
    cases e with
    | var v m =>
      intro decls env locals goal
      refine (announce_steady goal m).bind fun _ => ?_
      refine (varClass_steady env locals v m.span).bind fun c => ?_
      exact (settle_steady goal c m).bind fun p => .pure _
    | lit l m =>
      intro decls env locals goal
      refine (announce_steady goal m).bind fun _ => (alloc_steady _ m.span).bind fun c => ?_
      exact (settle_steady goal c m).bind fun p => .pure _
    | raise x m =>
      intro decls env locals goal
      refine (announce_steady goal m).bind fun _ => (goalOrNew_steady goal m.span).bind fun c => ?_
      exact (conclude_steady goal c m).bind fun p => .pure _
    | location l m =>
      intro decls env locals goal
      refine (announce_steady goal m).bind fun _ => ?_
      refine (locationType_steady env m.span l).bind fun t => ?_
      refine (load_steady t m.span).bind fun c => (settle_steady goal c m).bind fun p => ?_
      exact .pure _
    | op o m => exact op_steady
    | tuple es m => exact tuple_steady ih
    | array es m => exact array_steady ih
    | record struct fields m => exact record_steady ih
    | component e index size m => exact component_steady (ih e List.mem_cons_self)
    | field e struct name m => exact field_steady (ih e List.mem_cons_self)
    | inject enum ctor e m => exact inject_steady (ih e List.mem_cons_self)
    | force e m => exact force_steady (ih e List.mem_cons_self)
    | assert e m => exact assert_steady (ih e List.mem_cons_self)
    | lam params tys body m => exact lam_steady (ih body List.mem_cons_self)
    | switch e enum cases m =>
      obtain ⟨he, hcases⟩ := List.forall_mem_cons.mp ih
      exact switch_steady he hcases
    | app f args m =>
      obtain ⟨hf, hargs⟩ := List.forall_mem_cons.mp ih
      exact app_steady hf hargs
    | default es just cons m =>
      obtain ⟨hes, hj, hc⟩ : (∀ e ∈ es, Steadily e) ∧ Steadily just ∧ Steadily cons := by
        simpa [Expr.children, or_imp, forall_and] using ih
      exact default_steady hes hj hc
    | rescue body x handler m =>
      obtain ⟨hb, hh⟩ : Steadily body ∧ Steadily handler := by simpa [Expr.children] using ih
      exact rescue_steady hb hh
    | ite cond yes no m =>
      obtain ⟨hc, hy, hn⟩ : Steadily cond ∧ Steadily yes ∧ Steadily no := by
        simpa [Expr.children] using ih
      exact ite_steady hc hy hn

end Expressions

section Items

variable {decls : Decls} {env : Env} {locals : Locals}

theorem definition_steady (d : Definition Mark) : Steady (d.check decls env) := by
  refine (load_steady d.ty d.span).bind fun c => ?_
  refine (elaborate_steady d.expr decls env _ (some c)).bind fun e => Steady.get.bind fun s => ?_
  exact .pure _

theorem elaborateLets_steady (ls : List (ScopeLet Mark)) :
    Steady (elaborateLets decls env locals ls) := by
  induction ls generalizing env locals with
  | nil => exact .pure _
  | cons l ls ih =>
    refine (load_steady l.ty l.span).bind fun c => ?_
    refine (elaborate_steady l.expr decls env _ (some c)).bind fun e => Steady.get.bind fun s => ?_
    exact ih.bind fun r => .pure _

theorem body_steady (b : ScopeBody Mark) (span : Span) : Steady (b.check decls env span) := by
  refine (resolved_steady _ _ _ span).bind fun _ => (resolved_steady _ _ _ span).bind fun _ => ?_
  refine (alloc_steady _ span).bind fun c => (elaborateLets_steady b.lets).bind fun r => ?_
  refine (alloc_steady _ span).bind fun c => ?_
  refine (elaborate_steady b.result decls r.2.1 r.2.2 (some c)).bind fun e => ?_
  exact Steady.get.bind fun s => .pure _

theorem item_steady (i : Item Mark) : Steady (i.check decls env) := by
  cases i with
  | definition d => exact (definition_steady d).bind fun r => .pure _
  | scope s =>
    have checked : Steady (s.check decls env) := (body_steady s.body s.span).bind fun b => .pure _
    exact checked.bind fun r => .pure _

theorem Advance.proceeds (h : Advance s t) : s.Proceeds t := by
  cases h with
  | alloc shape span s => exact .alloc shape span s
  | unify run => exact Store.unifyWithin_proceeds (Store.unify_eq_ok.mp run)

theorem Advances.proceeds (h : Advances s t) : s.Proceeds t := by
  induction h with
  | refl => exact .refl s
  | tail _ step ih => exact ih.trans step.proceeds

/-- The steps of the items of a program, one run for each, every item with a store of its own. -/
inductive ItemTraces (decls : Decls) : Env → List (Item Mark) → List (List Step) → Prop
  | nil {env : Env} : ItemTraces decls env [] []
  | cons {env env' : Env} {i j : Item Mark} {s : Store} {is : List (Item Mark)}
      {runs : List (List Step)} : i.check decls env (.empty true) = .ok ((j, env'), s) →
      ItemTraces decls env' is runs → ItemTraces decls env (i :: is) (s.trace.toList :: runs)

theorem ItemTraces.wellFormed {is : List (Item Mark)} {runs : List (List Step)}
    (h : ItemTraces decls env is runs) : ∀ run ∈ runs, Numbered 0 run ∧ Clean run := by
  induction h with
  | nil => exact List.forall_mem_nil _
  | @cons env env' i j s is runs first rest ih =>
    refine List.forall_mem_cons.mpr ⟨?_, ih⟩
    obtain ⟨xs, notes, clean⟩ := Advances.proceeds (item_steady i _ _ _ first)
    obtain rfl : s.trace.toList = xs := notes.trace
    exact ⟨notes.numbered, clean⟩

theorem checkItems_traces {is : List (Item Mark)} {r : List (Item Mark) × Env × List Step}
    (run : checkItems decls true env is = .ok r) :
    ∃ runs, ItemTraces decls env is runs ∧ r.2.2 = runs.flatten := by
  induction is generalizing env r with
  | nil =>
    cases run
    exact ⟨[], .nil, rfl⟩
  | cons i is ih =>
    obtain ⟨j, env', s, r', first, rest, rfl⟩ := checkItems_cons_ok run
    obtain ⟨runs, traces, eq⟩ := ih rest
    exact ⟨s.trace.toList :: runs, .cons first traces, by rw [List.flatten_cons, eq]⟩

end Items

/-- A call of unification goes on with the numbers of the trace it finds. If it succeeds, none of its
steps is a failure; if it fails, the last one is, and it says why, and no class is other than it was.
So a program that is checked leaves the steps of its items one after another, none of them a failure,
each item's numbered from one. -/
theorem traces_wellFormed :
    (∀ (r s : Store) (a b : Class), r.Reachable → r.SameClasses s → s.tracing = true →
      a < s.size → b < s.size →
      ∃ xs, (s.unify a b).2.trace.toList = s.trace.toList ++ xs ∧ Numbered s.trace.size xs ∧
        ((s.unify a b).1 = .ok () → Clean xs) ∧
        ∀ m, (s.unify a b).1 = .error m → (∃ ys y, xs = ys ++ [y] ∧ Clean ys ∧
          y.action = if m.infinite then .occursCheck else .error) ∧
          s.Unchanged (s.unify a b).2) ∧
    ∀ (p : Program Mark) (c : CheckedProgram), p.check true = .ok c →
      ∃ runs, ItemTraces p.decls .empty p.items runs ∧ c.trace = runs.flatten ∧
        ∀ run ∈ runs, Numbered 0 run ∧ Clean run := by
  constructor
  · intro r s a b reachable same on ha hb
    exact (same.wf reachable.wf).unify_logs on ha hb
  · intro p c checked
    obtain ⟨r, run, rfl⟩ := program_check_iff.mp checked
    obtain ⟨runs, traces, eq⟩ := checkItems_traces run
    exact ⟨runs, traces, eq, traces.wellFormed⟩

section Example

/-- Two definitions, each a fold whose step has open binders. -/
def sums : Program Mark := ⟨default, (Samples.sum 1 0).1.items ++ (Samples.sum 0 3).1.items⟩

/-- A call that fails after two steps, one that succeeds in the same store, and a program with two
runs. -/
theorem sums_traces :
    (∃ xs, (Store.tangle.unify 1 4).2.trace.toList = Store.tangle.trace.toList ++ xs ∧
      Numbered 0 xs ∧ (∃ ys y, xs = ys ++ [y] ∧ Clean ys ∧ y.action = .occursCheck) ∧
      Store.tangle.Unchanged (Store.tangle.unify 1 4).2) ∧
    (∃ xs, (Store.tangle.unify 0 3).2.trace.toList = Store.tangle.trace.toList ++ xs ∧
      Numbered 0 xs ∧ Clean xs) ∧
    ∃ c, sums.check true = .ok c ∧ c.trace.map Step.number = [1, 2, 3, 4, 1, 2, 3, 4] ∧
      ∃ runs, ItemTraces sums.decls .empty sums.items runs ∧ c.trace = runs.flatten ∧
        ∀ run ∈ runs, Numbered 0 run ∧ Clean run := by
  obtain ⟨calls, programs⟩ := traces_wellFormed
  have call (a b : Class) :=
    calls Store.tangle Store.tangle a b Store.tangle_reachable ⟨rfl, rfl⟩ rfl
  refine ⟨?_, ?_, ?_⟩
  · have answer : (Store.tangle.unify 1 4).1 = .error ⟨⟨.tuple [.any, .any], .synthetic⟩,
        ⟨.tuple [.array .any, .any], .synthetic⟩, true⟩ := by decide +kernel
    obtain ⟨xs, trace, numbered, -, failed⟩ := call 1 4 (by decide +kernel) (by decide +kernel)
    obtain ⟨last, unchanged⟩ := failed _ answer
    exact ⟨xs, trace, numbered, last, unchanged⟩
  · obtain ⟨xs, trace, numbered, clean, -⟩ := call 0 3 (by decide +kernel) (by decide +kernel)
    exact ⟨xs, trace, numbered, clean (by decide +kernel)⟩
  · have found : (sums.check true).toOption.map (·.trace.map Step.number) =
        some [1, 2, 3, 4, 1, 2, 3, 4] := by decide +kernel
    obtain ⟨c, run, numbers⟩ := Option.map_eq_some_iff.mp found
    have run := toOption_eq_some.mp run
    exact ⟨c, run, numbers, programs sums c run⟩

end Example

end Ordinance.Typing
