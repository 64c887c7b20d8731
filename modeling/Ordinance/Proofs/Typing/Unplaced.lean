import Ordinance.Proofs.Program.Unplaced
import Ordinance.Proofs.Store.Unplaced
import Ordinance.Typing.Check

namespace Ordinance

namespace Typing

def Pending.unplaced (p : Pending) : Pending := { p with span := .synthetic }

def Fault.unplaced : Fault → Fault
  | mismatch m => mismatch m.unplaced
  | fault => fault

def Error.unplaced (e : Error) : Error := ⟨e.fault.unplaced, .synthetic⟩

variable {α β γ δ : Type} {quiet : Bool}

/-- From the store without places the second computation does what the first does from the store:
it ends in the store without places and with `f` of the result, or with the same error elsewhere. -/
def Erases (quiet : Bool) (f : α → β) (x : TypeM α) (y : TypeM β) : Prop :=
  ∀ s, y (s.unplaced quiet) =
    ((x s).map fun r => (f r.1, r.2.unplaced quiet)).mapError Error.unplaced

namespace Erases

variable {f : α → β} {g : γ → δ} {x : TypeM α} {y : TypeM β}

theorem pure (a : α) : Erases quiet f (pure a) (pure (f a)) := fun _ => rfl

theorem pure_eq {a : α} {b : β} (h : f a = b) :
    Erases quiet f (Pure.pure a) (Pure.pure b) := h ▸ pure a

theorem bind {k : α → TypeM γ} {l : β → TypeM δ} (h : Erases quiet f x y)
    (next : ∀ a, Erases quiet g (k a) (l (f a))) : Erases quiet g (x >>= k) (y >>= l) := by
  intro s
  change Except.bind (y _) (fun r => l r.1 r.2) =
    ((Except.bind (x s) fun r => k r.1 r.2).map _).mapError _
  rw [h s]
  cases x s with
  | ok r => exact next r.1 r.2
  | error err => rfl

theorem map {x y : TypeM α} (h : Erases quiet id x y) (k : α → γ) :
    Erases quiet id (k <$> x) (k <$> y) := by
  intro s
  change Except.bind (y _) (fun r => .ok (k r.1, r.2)) =
    ((Except.bind (x s) fun r => .ok (k r.1, r.2)).map _).mapError _
  rw [h s]
  cases x s <;> rfl

theorem fail (fault : Fault) (span : Span) :
    Erases quiet f (fail fault span) (fail fault.unplaced .synthetic) := fun _ => rfl

/-- A computation that only makes cells. -/
theorem modify {x y : StateM Store α} (h : Store.Placeless quiet x y) :
    Erases quiet id (modifyGet x) (modifyGet y) := by
  intro s
  change Except.ok (y _) = _
  rw [h s]
  rfl

end Erases

section Steps

theorem get_erases : Erases quiet (Store.unplaced quiet) get get := fun _ => rfl

theorem alloc_erases (shape : Shape Class) (span : Span) :
    Erases quiet id (alloc shape span) (alloc shape .synthetic) :=
  .modify (Store.alloc_placeless shape span)

theorem load_erases (t : Ty) (span : Span) : Erases quiet id (load t span) (load t .synthetic) :=
  .modify (Store.load_placeless span t)

theorem loadAll_erases (ts : List Ty) (span : Span) :
    Erases quiet id (loadAll ts span) (loadAll ts .synthetic) :=
  .modify (Store.loadAll_placeless fun t _ => Store.load_placeless span t)

theorem shapeOf_erases (c : Class) : Erases quiet id (shapeOf c) (shapeOf c) := by
  refine get_erases.bind fun s => ?_
  rw [Store.shape_unplaced]
  exact .pure _

theorem unify_erases (a b : Class) (span : Span) :
    Erases quiet id (unify a b span) (unify a b .synthetic) := by
  refine get_erases.bind fun s => ?_
  rw [Store.unify_unplaced]
  rcases s.unify a b with ⟨r, t⟩
  cases r with
  | ok _ => exact fun _ => rfl
  | error m => exact .fail _ span

theorem resolved_erases (found : Option α) (kind : NameKind) (name : String) (span : Span) :
    Erases quiet id (resolved found kind name span) (resolved found kind name .synthetic) := by
  cases found with
  | some a => exact .pure a
  | none => exact .fail _ span

theorem counted_erases (what : String) (expected got : Nat) (span : Span) :
    Erases quiet id (counted what expected got span) (counted what expected got .synthetic) := by
  unfold counted
  split
  · exact .pure ()
  · exact .fail _ span

theorem writtenClass_erases (m : Mark) :
    Erases quiet id (writtenClass m) (writtenClass m.unplaced) := by
  unfold writtenClass
  rw [Mark.unplaced]
  split
  · exact .pure none
  · exact (load_erases m.ty m.span).map some

theorem announce_erases (goal : Option Class) (m : Mark) :
    Erases quiet id (announce goal m) (announce goal m.unplaced) := by
  cases goal with
  | none => exact .pure ()
  | some g =>
    refine (writtenClass_erases m).bind fun c => ?_
    cases c with
    | none => exact .pure ()
    | some c => exact unify_erases g c m.span

theorem conclude_erases (goal : Option Class) (c : Class) (m : Mark) :
    Erases quiet Pending.unplaced (conclude goal c m) (conclude goal c m.unplaced) := by
  cases goal with
  | some g => exact .pure _
  | none =>
    refine (writtenClass_erases m).bind fun a => ?_
    cases a with
    | none => exact .pure _
    | some a => exact (unify_erases a c m.span).bind fun _ => .pure _

theorem settle_erases (goal : Option Class) (c : Class) (m : Mark) :
    Erases quiet Pending.unplaced (settle goal c m) (settle goal c m.unplaced) := by
  cases goal with
  | none => exact conclude_erases none c m
  | some g => exact (unify_erases g c m.span).bind fun _ => conclude_erases (some g) c m

theorem goalOrNew_erases (goal : Option Class) (span : Span) :
    Erases quiet id (goalOrNew goal span) (goalOrNew goal .synthetic) := by
  cases goal with
  | some g => exact .pure g
  | none => exact alloc_erases .any span

theorem goalShape_erases (goal : Option Class) :
    Erases quiet id (goalShape goal) (goalShape goal) := by
  cases goal with
  | some g => exact shapeOf_erases g
  | none => exact .pure _

theorem binders_erases (params : List Var) (tys : List Ty) (span : Span) :
    Erases quiet id (binders params tys span) (binders params tys .synthetic) :=
  (counted_erases _ _ _ span).bind fun _ => loadAll_erases tys span

theorem unifyEach_erases (pairs : List (Class × Class)) (span : Span) :
    Erases quiet id (unifyEach span pairs) (unifyEach .synthetic pairs) := by
  induction pairs with
  | nil => exact .pure ()
  | cons x pairs ih => exact (unify_erases x.1 x.2 span).bind fun _ => ih

theorem varClass_erases (env : Env) (locals : Locals) (v : Var) (span : Span) :
    Erases quiet id (varClass env locals v span) (varClass env locals v .synthetic) := by
  unfold varClass
  split
  · exact .pure _
  · exact (resolved_erases _ _ _ span).bind fun t => load_erases t span

theorem locationType_erases (env : Env) (span : Span) (l : Location) :
    Erases quiet id (locationType env span l) (locationType env .synthetic l) := by
  cases l <;> exact resolved_erases _ _ _ span

theorem allocMany_erases (n : Nat) (span : Span) :
    Erases quiet id (allocMany span n) (allocMany .synthetic n) := by
  induction n with
  | zero => exact .pure []
  | succ n ih => exact (alloc_erases .any span).bind fun c => ih.bind fun cs => .pure (c :: cs)

theorem loadCases_erases (cases : List (String × Ty)) (span : Span) :
    Erases quiet id (loadCases span cases) (loadCases .synthetic cases) := by
  induction cases with
  | nil => exact .pure []
  | cons x cases ih =>
    exact (load_erases x.2 span).bind fun c => ih.bind fun cs => .pure ((x.1, c) :: cs)

theorem enumClasses_erases (decls : Decls) (enum : String) (span : Span) :
    Erases quiet id (enumClasses decls enum span) (enumClasses decls enum .synthetic) := by
  unfold enumClasses
  split
  · exact (alloc_erases .any span).bind fun _ => (alloc_erases _ span).bind fun _ =>
      (alloc_erases _ span).bind fun _ => .pure _
  · exact (resolved_erases _ _ _ span).bind fun layout =>
      (loadCases_erases _ span).bind fun _ => (alloc_erases _ span).bind fun _ => .pure _

end Steps

section Expressions

variable {decls : Decls} {env : Env} {locals : Locals} {goal : Option Class}

theorem mark_unplaced (e : Expr Mark) : e.unplaced.mark = e.mark.unplaced := Expr.mark_mapMarks e

/-- The expression is elaborated in the same way without places. -/
def Blind (quiet : Bool) (e : Expr Mark) : Prop :=
  ∀ decls env locals goal, Erases quiet (Expr.mapMarks Pending.unplaced)
    (elaborate decls env locals goal e) (elaborate decls env locals goal e.unplaced)

theorem elaborateEach_erases {es : List (Expr Mark)} (h : ∀ e ∈ es, Blind quiet e)
    (goals : List (Option Class)) :
    Erases quiet (List.map (Expr.mapMarks Pending.unplaced))
      (elaborateEach decls env locals goals es)
      (elaborateEach decls env locals goals (es.map Expr.unplaced)) := by
  induction es generalizing goals with
  | nil => exact .pure []
  | cons e es ih =>
    obtain ⟨head, tail⟩ := List.forall_mem_cons.mp h
    exact (head _ _ _ _).bind fun e => (ih tail _).bind fun es => .pure (e :: es)

theorem elaborateNamed_erases {es : List (String × Expr Mark)}
    (h : ∀ e ∈ es.map (·.2), Blind quiet e) {expected : String → Span → TypeM Class}
    (he : ∀ name span, Erases quiet id (expected name span) (expected name .synthetic)) :
    Erases quiet (List.map fun x => (x.1, x.2.mapMarks Pending.unplaced))
      (elaborateNamed decls env locals expected es)
      (elaborateNamed decls env locals expected (es.map fun x => (x.1, x.2.unplaced))) := by
  induction es with
  | nil => exact .pure []
  | cons x es ih =>
    obtain ⟨head, tail⟩ := List.forall_mem_cons.mp h
    obtain ⟨name, e⟩ := x
    rw [List.map_cons, elaborateNamed, elaborateNamed, mark_unplaced]
    exact (he name _).bind fun c => (head _ _ _ _).bind fun e => (ih tail).bind fun es =>
      .pure ((name, e) :: es)

theorem classes_unplaced (es : List (Expr Pending)) :
    (es.map (Expr.mapMarks Pending.unplaced)).map (·.mark.cls) = es.map (·.mark.cls) := by
  simp [Function.comp_def, Pending.unplaced]

section Nodes

variable {e : Expr Mark} {es : List (Expr Mark)} {m : Mark}

theorem tuple_blind (h : ∀ e ∈ es, Blind quiet e) : Blind quiet (.tuple es m) := by
  intro decls env locals goal
  rw [Expr.unplaced, Expr.mapMarks_tuple]
  refine (announce_erases goal m).bind fun _ => (goalShape_erases goal).bind fun p => ?_
  rw [List.length_map, id]
  split
  · refine (elaborateEach_erases h _).bind fun es => ?_
    exact .pure_eq (Expr.mapMarks_tuple _ _)
  · refine (elaborateEach_erases h _).bind fun es => ?_
    rw [classes_unplaced]
    refine (alloc_erases _ m.span).bind fun c => (settle_erases _ c m).bind fun p => ?_
    exact .pure_eq (Expr.mapMarks_tuple _ _)

theorem component_blind {index size : Nat} (h : Blind quiet e) :
    Blind quiet (.component e index size m) := by
  intro decls env locals goal
  refine (announce_erases goal m).bind fun _ => ?_
  split
  · refine (allocMany_erases size m.span).bind fun cs => (alloc_erases _ m.span).bind fun c => ?_
    refine (h decls env locals (some c)).bind fun e => (settle_erases goal _ m).bind fun p => ?_
    exact .pure _
  · exact .fail _ m.span

theorem record_blind {struct : String} {fields : List (String × Expr Mark)}
    (h : ∀ e ∈ fields.map (·.2), Blind quiet e) : Blind quiet (.record struct fields m) := by
  intro decls env locals goal
  rw [Expr.unplaced, Expr.mapMarks_record]
  refine (announce_erases goal m).bind fun _ => ?_
  refine (resolved_erases _ _ _ m.span).bind fun layout => ?_
  refine (elaborateNamed_erases h fun name span => ?_).bind fun fields => ?_
  · exact (resolved_erases _ _ _ span).bind fun t => load_erases t span
  rw [List.length_map]
  refine (counted_erases _ _ _ m.span).bind fun _ => (alloc_erases _ m.span).bind fun c => ?_
  exact (settle_erases goal c m).bind fun p => .pure_eq (Expr.mapMarks_record _ _ _)

theorem field_blind {struct name : String} (h : Blind quiet e) :
    Blind quiet (.field e struct name m) := by
  intro decls env locals goal
  refine (announce_erases goal m).bind fun _ => ?_
  refine (resolved_erases _ _ _ m.span).bind fun layout => ?_
  refine (resolved_erases _ _ _ m.span).bind fun t => (alloc_erases _ m.span).bind fun c => ?_
  refine (h decls env locals (some c)).bind fun e => (load_erases t m.span).bind fun c => ?_
  exact (settle_erases goal c m).bind fun p => .pure _

theorem inject_blind {enum ctor : String} (h : Blind quiet e) :
    Blind quiet (.inject enum ctor e m) := by
  intro decls env locals goal
  have last (e : Expr Pending) (c : Class) : Erases quiet (Expr.mapMarks Pending.unplaced)
      (settle goal c m >>= fun p => pure (.inject enum ctor e p))
      (settle goal c m.unplaced >>= fun p =>
        pure (.inject enum ctor (e.mapMarks Pending.unplaced) p)) :=
    (settle_erases goal c m).bind fun p => .pure _
  refine (announce_erases goal m).bind fun _ => ?_
  split
  · split
    · refine (alloc_erases _ m.span).bind fun c => (h decls env locals (some c)).bind fun e => ?_
      refine (alloc_erases _ m.span).bind fun c => (alloc_erases _ m.span).bind fun c => ?_
      exact last e c
    · split
      · refine (goalShape_erases goal).bind fun p => ?_
        dsimp only [id]
        split
        · exact (h decls env locals _).bind fun e => .pure _
        · refine (h decls env locals none).bind fun e => ?_
          rw [Expr.mark_mapMarks]
          exact (alloc_erases _ m.span).bind fun c => last e c
      · exact .fail _ m.span
  · refine (resolved_erases _ _ _ m.span).bind fun layout => ?_
    refine (resolved_erases _ _ _ m.span).bind fun t => (load_erases t m.span).bind fun c => ?_
    refine (h decls env locals (some c)).bind fun e => (alloc_erases _ m.span).bind fun c => ?_
    exact last e c

theorem switch_blind {enum : String} {cases : List (String × Expr Mark)} (he : Blind quiet e)
    (hcases : ∀ e ∈ cases.map (·.2), Blind quiet e) : Blind quiet (.switch e enum cases m) := by
  intro decls env locals goal
  rw [Expr.unplaced, Expr.mapMarks_switch]
  refine (announce_erases goal m).bind fun _ => (goalOrNew_erases goal m.span).bind fun r => ?_
  refine (enumClasses_erases decls enum m.span).bind fun payloads => ?_
  refine (he decls env locals _).bind fun e => ?_
  refine (elaborateNamed_erases hcases fun name span => ?_).bind fun cases => ?_
  · exact (resolved_erases _ _ _ span).bind fun payload => alloc_erases _ span
  rw [List.length_map]
  refine (counted_erases _ _ _ m.span).bind fun _ => ?_
  exact (conclude_erases goal r m).bind fun p => .pure_eq (Expr.mapMarks_switch _ _ _ _)

theorem op_blind {o : Op} : Blind quiet (.op o m) := by
  intro decls env locals goal
  refine (announce_erases goal m).bind fun _ => ?_
  split
  · refine (Erases.modify (Store.instantiate_placeless _ m.span)).bind fun c => ?_
    exact (settle_erases goal c m).bind fun p => .pure _
  · exact .fail _ m.span

theorem app_blind {f : Expr Mark} (hf : Blind quiet f) (h : ∀ e ∈ es, Blind quiet e) :
    Blind quiet (.app f es m) := by
  intro decls env locals goal
  rw [Expr.unplaced, Expr.mapMarks_app]
  refine (announce_erases goal m).bind fun _ => (hf decls env locals none).bind fun f => ?_
  rw [Expr.mark_mapMarks]
  refine (shapeOf_erases _).bind fun p => ?_
  dsimp only [id]
  split
  · rw [List.length_map]
    refine (counted_erases _ _ _ m.span).bind fun _ => ?_
    refine (elaborateEach_erases h _).bind fun args => ?_
    exact (settle_erases goal _ m).bind fun p => .pure_eq (Expr.mapMarks_app _ _ _)
  · refine (elaborateEach_erases h _).bind fun args => (alloc_erases _ m.span).bind fun r => ?_
    rw [classes_unplaced]
    refine (alloc_erases _ m.span).bind fun c => (unify_erases _ c m.span).bind fun _ => ?_
    exact (settle_erases goal r m).bind fun p => .pure_eq (Expr.mapMarks_app _ _ _)

theorem lam_blind {params : List Var} {tys : List Ty} (h : Blind quiet e) :
    Blind quiet (.lam params tys e m) := by
  intro decls env locals goal
  refine (announce_erases goal m).bind fun _ => (goalShape_erases goal).bind fun p => ?_
  dsimp only [id]
  split
  · refine (counted_erases _ _ _ m.span).bind fun _ => ?_
    refine (binders_erases params tys m.span).bind fun cs => ?_
    refine (unifyEach_erases _ m.span).bind fun _ => (h decls env _ _).bind fun body => ?_
    exact .pure _
  · refine (binders_erases params tys m.span).bind fun cs => ?_
    refine (h decls env _ none).bind fun body => ?_
    rw [Expr.mark_mapMarks]
    refine (alloc_erases _ m.span).bind fun c => (settle_erases _ c m).bind fun p => ?_
    exact .pure _

theorem default_blind {just cons : Expr Mark} (h : ∀ e ∈ es, Blind quiet e)
    (hj : Blind quiet just) (hc : Blind quiet cons) : Blind quiet (.default es just cons m) := by
  intro decls env locals goal
  rw [Expr.unplaced, Expr.mapMarks_default]
  refine (announce_erases goal m).bind fun _ => (hc decls env locals goal).bind fun cons => ?_
  rw [Expr.mark_mapMarks, Expr.mark_mapMarks]
  dsimp only
  rw [List.map_map]
  refine (elaborateEach_erases h _).bind fun es => (alloc_erases _ _).bind fun bool => ?_
  refine (hj decls env locals _).bind fun just => (conclude_erases goal _ m).bind fun p => ?_
  exact .pure_eq (Expr.mapMarks_default _ _ _ _)

theorem rescue_blind {handler : Expr Mark} {x : Exn} (he : Blind quiet e)
    (hh : Blind quiet handler) : Blind quiet (.rescue e x handler m) := by
  intro decls env locals goal
  refine (announce_erases goal m).bind fun _ => (he decls env locals goal).bind fun body => ?_
  rw [Expr.mark_mapMarks]
  refine (hh decls env locals _).bind fun handler => (conclude_erases goal _ m).bind fun p => ?_
  exact .pure _

theorem force_blind (h : Blind quiet e) : Blind quiet (.force e m) := by
  intro decls env locals goal
  refine (announce_erases goal m).bind fun _ => (h decls env locals goal).bind fun e => ?_
  rw [Expr.mark_mapMarks]
  exact (conclude_erases goal _ m).bind fun p => .pure _

theorem array_blind (h : ∀ e ∈ es, Blind quiet e) : Blind quiet (.array es m) := by
  intro decls env locals goal
  rw [Expr.unplaced, Expr.mapMarks_array]
  refine (announce_erases goal m).bind fun _ => (alloc_erases _ m.span).bind fun item => ?_
  rw [List.map_map]
  split
  · refine (alloc_erases _ m.span).bind fun c => (unify_erases _ c m.span).bind fun _ => ?_
    exact (elaborateEach_erases h _).bind fun es => .pure_eq (Expr.mapMarks_array _ _)
  · refine (elaborateEach_erases h _).bind fun es => (alloc_erases _ m.span).bind fun c => ?_
    exact (conclude_erases _ c m).bind fun p => .pure_eq (Expr.mapMarks_array _ _)

theorem ite_blind {yes no : Expr Mark} (hc : Blind quiet e) (hy : Blind quiet yes)
    (hn : Blind quiet no) : Blind quiet (.ite e yes no m) := by
  intro decls env locals goal
  refine (announce_erases goal m).bind fun _ => ?_
  rw [Expr.mark_retype]
  refine (alloc_erases _ _).bind fun bool => (hc decls env locals _).bind fun cond => ?_
  refine (hy decls env locals goal).bind fun yes => ?_
  rw [Expr.mark_mapMarks]
  refine (hn decls env locals _).bind fun no => (conclude_erases goal _ m).bind fun p => ?_
  exact .pure _

theorem assert_blind (h : Blind quiet e) : Blind quiet (.assert e m) := by
  intro decls env locals goal
  refine (announce_erases goal m).bind fun _ => ?_
  rw [Expr.mark_retype]
  refine (alloc_erases _ _).bind fun bool => (h decls env locals _).bind fun e => ?_
  refine (alloc_erases _ m.span).bind fun c => (settle_erases goal c m).bind fun p => ?_
  exact .pure _

end Nodes

theorem elaborate_erases (e : Expr Mark) : Blind quiet e := by
  induction e using Expr.induct with
  | node e ih =>
    cases e with
    | var v m =>
      intro decls env locals goal
      refine (announce_erases goal m).bind fun _ => ?_
      refine (varClass_erases env locals v m.span).bind fun c => ?_
      exact (settle_erases goal c m).bind fun p => .pure _
    | lit l m =>
      intro decls env locals goal
      refine (announce_erases goal m).bind fun _ => (alloc_erases _ m.span).bind fun c => ?_
      exact (settle_erases goal c m).bind fun p => .pure _
    | raise x m =>
      intro decls env locals goal
      refine (announce_erases goal m).bind fun _ => (goalOrNew_erases goal m.span).bind fun c => ?_
      exact (conclude_erases goal c m).bind fun p => .pure _
    | location l m =>
      intro decls env locals goal
      refine (announce_erases goal m).bind fun _ => ?_
      refine (locationType_erases env m.span l).bind fun t => ?_
      refine (load_erases t m.span).bind fun c => (settle_erases goal c m).bind fun p => ?_
      exact .pure _
    | op o m => exact op_blind
    | tuple es m => exact tuple_blind ih
    | array es m => exact array_blind ih
    | record struct fields m => exact record_blind ih
    | component e index size m => exact component_blind (ih e List.mem_cons_self)
    | field e struct name m => exact field_blind (ih e List.mem_cons_self)
    | inject enum ctor e m => exact inject_blind (ih e List.mem_cons_self)
    | force e m => exact force_blind (ih e List.mem_cons_self)
    | assert e m => exact assert_blind (ih e List.mem_cons_self)
    | lam params tys body m => exact lam_blind (ih body List.mem_cons_self)
    | switch e enum cases m =>
      obtain ⟨he, hcases⟩ := List.forall_mem_cons.mp ih
      exact switch_blind he hcases
    | app f args m =>
      obtain ⟨hf, hargs⟩ := List.forall_mem_cons.mp ih
      exact app_blind hf hargs
    | default es just cons m =>
      obtain ⟨hes, hj, hc⟩ : (∀ e ∈ es, Blind quiet e) ∧ Blind quiet just ∧ Blind quiet cons := by
        simpa [Expr.children, or_imp, forall_and] using ih
      exact default_blind hes hj hc
    | rescue body x handler m =>
      obtain ⟨hb, hh⟩ : Blind quiet body ∧ Blind quiet handler := by simpa [Expr.children] using ih
      exact rescue_blind hb hh
    | ite cond yes no m =>
      obtain ⟨hc, hy, hn⟩ : Blind quiet cond ∧ Blind quiet yes ∧ Blind quiet no := by
        simpa [Expr.children] using ih
      exact ite_blind hc hy hn

theorem finish_unplaced (s : Store) (e : Expr Pending) :
    Pending.finish (s.unplaced quiet) (e.mapMarks Pending.unplaced) =
      (Pending.finish s e).unplaced := by
  refine Expr.retype_mapMarks (fun p => ?_) (fun _ _ => rfl) e
  rw [Store.resolve_unplaced]
  rfl

end Expressions

section Items

variable {decls : Decls} {env : Env} {locals : Locals}

theorem definition_erases (d : Definition Mark) :
    Erases quiet (fun r => (r.1.unplaced, r.2)) (d.check decls env)
      (d.unplaced.check decls env) := by
  refine (load_erases d.ty d.span).bind fun c => ?_
  refine (elaborate_erases d.expr decls env _ (some c)).bind fun e => get_erases.bind fun s => ?_
  rw [finish_unplaced, Store.resolve_unplaced]
  exact .pure _

def PendingLet.unplaced (l : PendingLet) : PendingLet :=
  ⟨l.source.unplaced, l.expr.mapMarks Pending.unplaced⟩

theorem finish_let_unplaced (s : Store) (l : PendingLet) :
    l.unplaced.finish (s.unplaced quiet) = (l.finish s).unplaced := by
  simp only [PendingLet.finish, PendingLet.unplaced, finish_unplaced, Store.resolve_unplaced,
    Expr.mark_mapMarks]
  rfl

theorem elaborateLets_erases (ls : List (ScopeLet Mark)) :
    Erases quiet (fun r => (r.1.map PendingLet.unplaced, r.2)) (elaborateLets decls env locals ls)
      (elaborateLets decls env locals (ls.map ScopeLet.unplaced)) := by
  induction ls generalizing env locals with
  | nil => exact .pure _
  | cons l ls ih =>
    refine (load_erases l.ty l.span).bind fun c => ?_
    refine (elaborate_erases l.expr decls env _ (some c)).bind fun e => get_erases.bind fun s => ?_
    rw [Store.resolve_unplaced]
    exact ih.bind fun r => .pure _

theorem body_erases (b : ScopeBody Mark) (span : Span) :
    Erases quiet ScopeBody.unplaced (b.check decls env span)
      (b.unplaced.check decls env .synthetic) := by
  refine (resolved_erases _ _ _ span).bind fun _ => (resolved_erases _ _ _ span).bind fun _ => ?_
  refine (alloc_erases _ span).bind fun c => (elaborateLets_erases b.lets).bind fun r => ?_
  refine (alloc_erases _ span).bind fun c => ?_
  refine (elaborate_erases b.result decls r.2.1 r.2.2 (some c)).bind fun e => ?_
  refine get_erases.bind fun s => .pure_eq ?_
  simp only [ScopeBody.unplaced, List.map_map, Function.comp_def, finish_let_unplaced,
    finish_unplaced]

theorem item_erases (i : Item Mark) :
    Erases quiet (fun r => (r.1.unplaced, r.2)) (i.check decls env)
      (i.unplaced.check decls env) := by
  cases i with
  | definition d => exact (definition_erases d).bind fun r => .pure _
  | scope s =>
    have checked : Erases quiet (fun r => (r.1.unplaced, r.2)) (s.check decls env)
        (s.unplaced.check decls env) :=
      (body_erases s.body s.span).bind fun b => .pure _
    exact checked.bind fun r => .pure _

theorem checkItems_unplaced (tracing : Bool) (is : List (Item Mark)) :
    checkItems decls (tracing && !quiet) env (is.map Item.unplaced) =
      ((checkItems decls tracing env is).map fun r =>
        (r.1.map Item.unplaced, r.2.1, if quiet then [] else r.2.2)).mapError Error.unplaced := by
  induction is generalizing env with
  | nil => cases quiet <;> rfl
  | cons i is ih =>
    have first : i.unplaced.check decls env ((Store.empty tracing).unplaced quiet) = _ :=
      item_erases i (.empty tracing)
    rw [Store.unplaced_empty] at first
    rw [List.map_cons, checkItems, checkItems]
    change Except.bind (i.unplaced.check decls env (.empty (tracing && !quiet))) _ =
      ((Except.bind (i.check decls env (.empty tracing)) _).map _).mapError _
    rw [first]
    cases i.check decls env (.empty tracing) with
    | error x => rfl
    | ok r =>
      change Except.bind (checkItems decls (tracing && !quiet) r.1.2 (is.map Item.unplaced)) _ =
        ((Except.bind (checkItems decls tracing r.1.2 is) _).map _).mapError _
      rw [ih]
      cases checkItems decls tracing r.1.2 is with
      | error x => rfl
      | ok r' => cases quiet <;> rfl

end Items

end Typing

/-- The checked program without places and, if it is to be quiet, without its trace. -/
def CheckedProgram.unplaced (quiet : Bool) (c : CheckedProgram) : CheckedProgram :=
  ⟨c.program.unplaced, c.env, if quiet then [] else c.trace⟩

theorem Program.check_unplaced (quiet tracing : Bool) (p : Program Mark) :
    p.unplaced.check (tracing && !quiet) =
      ((p.check tracing).map (CheckedProgram.unplaced quiet)).mapError Typing.Error.unplaced := by
  change Except.bind (Typing.checkItems p.decls (tracing && !quiet) .empty
      (p.items.map Item.unplaced)) _ =
    ((Except.bind (Typing.checkItems p.decls tracing .empty p.items) _).map _).mapError _
  rw [Typing.checkItems_unplaced]
  cases Typing.checkItems p.decls tracing .empty p.items <;> rfl

end Ordinance
