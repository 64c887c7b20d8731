import Ordinance.Proofs.Typing.Steps

namespace Ordinance.Typing

/-- The tree with the types that a reading of the store gives to its classes. -/
def assign (φ : Class → Ty) (e : Expr Pending) : Expr Mark :=
  e.retype (fun p => ⟨p.span, φ p.cls⟩) binderTypes

section Assign

variable (φ : Class → Ty)

@[simp] theorem assign_mark (e : Expr Pending) :
    (assign φ e).mark = ⟨e.mark.span, φ e.mark.cls⟩ := by
  rw [assign, Expr.mark_retype]

@[simp] theorem assign_children (e : Expr Pending) :
    (assign φ e).children = e.children.map (assign φ) := by
  rw [assign, Expr.children_retype]
  rfl

theorem assign_tuple (es : List (Expr Pending)) (p : Pending) :
    assign φ (.tuple es p) = .tuple (es.map (assign φ)) ⟨p.span, φ p.cls⟩ := by
  rw [assign, Expr.retype, Expr.retypeAll_eq_map]
  rfl

theorem assign_array (es : List (Expr Pending)) (p : Pending) :
    assign φ (.array es p) = .array (es.map (assign φ)) ⟨p.span, φ p.cls⟩ := by
  rw [assign, Expr.retype, Expr.retypeAll_eq_map]
  rfl

theorem assign_app (f : Expr Pending) (args : List (Expr Pending)) (p : Pending) :
    assign φ (.app f args p) = .app (assign φ f) (args.map (assign φ)) ⟨p.span, φ p.cls⟩ := by
  rw [assign, Expr.retype, Expr.retypeAll_eq_map]
  rfl

theorem assign_default (es : List (Expr Pending)) (just cons : Expr Pending) (p : Pending) :
    assign φ (.default es just cons p) =
      .default (es.map (assign φ)) (assign φ just) (assign φ cons) ⟨p.span, φ p.cls⟩ := by
  rw [assign, Expr.retype, Expr.retypeAll_eq_map]
  rfl

theorem assign_record (struct : String) (fs : List (String × Expr Pending)) (p : Pending) :
    assign φ (.record struct fs p) =
      .record struct (fs.map fun f => (f.1, assign φ f.2)) ⟨p.span, φ p.cls⟩ := by
  rw [assign, Expr.retype, Expr.retypeNamed_eq_map]
  rfl

theorem assign_switch (e : Expr Pending) (enum : String) (cs : List (String × Expr Pending))
    (p : Pending) : assign φ (.switch e enum cs p) =
      .switch (assign φ e) enum (cs.map fun c => (c.1, assign φ c.2)) ⟨p.span, φ p.cls⟩ := by
  rw [assign, Expr.retype, Expr.retypeNamed_eq_map]
  rfl

end Assign

variable (decls : Decls) (env : Env)

/-- What elaboration of `e` gives, if anything: under every reading of the store that it leaves, the
tree is `e` with its open types filled in, and all its types are as the typing rules want them. -/
def SoundAt (e : Expr Mark) : Prop :=
  ∀ ⦃s : Store⦄ ⦃φ : Class → Ty⦄ ⦃locals : Locals⦄ ⦃goal : Option Class⦄, s.Wf →
    Scoped s locals goal →
    Sound φ s (elaborate decls env locals goal e) (fun e' t => Settled goal e.mark e'.mark t)
      (fun e' => HasTy Eq decls env (locals.mapValues φ) (assign φ e') (φ e'.mark.cls) ∧
        e.Admits (assign φ e'))

variable {decls env} {s : Store} {φ : Class → Ty} {locals : Locals} {goal : Option Class}

section Lists

variable {es : List (Expr Mark)}

theorem elaborateEach_sound (ih : ∀ e ∈ es, SoundAt decls env e) (hs : s.Wf)
    (h : Scoped s locals none) {goals : List (Option Class)}
    (lt : ∀ goal ∈ goals, ∀ g ∈ goal, g < s.size) :
    Sound φ s (elaborateEach decls env locals goals es)
      (fun es' t => es'.length = es.length ∧ (∀ e' ∈ es', e'.mark.cls < t.size) ∧
        ∀ x ∈ es'.zip goals, ∀ g ∈ x.2, x.1.mark.cls = g)
      (fun es' => (∀ e' ∈ es', HasTy Eq decls env (locals.mapValues φ) (assign φ e')
          (φ e'.mark.cls)) ∧ List.Forall₂ Expr.Admits es (es'.map (assign φ))) := by
  induction es generalizing s goals with
  | nil => exact .pure hs ⟨rfl, by simp, by simp⟩ ⟨by simp, .nil⟩
  | cons e es tail =>
    obtain ⟨head, rest⟩ := List.forall_mem_cons.mp ih
    have here : Scoped s locals (goals.headD none) := by
      refine ⟨h.local_lt, fun {g} hg => ?_⟩
      cases goals with
      | nil => cases hg
      | cons goal goals => exact lt goal List.mem_cons_self g hg
    refine .bind (head hs here) fun e' t ht le settled => ?_
    have later : ∀ goal ∈ goals.tail, ∀ g ∈ goal, g < t.size := fun goal hgoal g hg =>
      Nat.lt_of_lt_of_le (lt goal (List.mem_of_mem_tail hgoal) g hg) le.size
    refine .bind (tail rest ht (h.mono le) later) fun es' t ht le bounds => ?_
    refine .pure ht ⟨by simp [bounds.1], ?_, ?_⟩ fun many one => ⟨?_, ?_⟩
    · exact List.forall_mem_cons.mpr ⟨Nat.lt_of_lt_of_le settled.lt le.size, bounds.2.1⟩
    · cases goals with
      | nil => simp
      | cons goal goals =>
        exact List.forall_mem_cons.mpr ⟨fun g hg => settled.goal_eq hg, bounds.2.2⟩
    · exact List.forall_mem_cons.mpr ⟨one.1, many.1⟩
    · exact .cons one.2 many.2

theorem elaborateNamed_sound {fs : List (String × Expr Mark)}
    (ih : ∀ f ∈ fs, SoundAt decls env f.2) (hs : s.Wf) (h : Scoped s locals none)
    {expected : String → Span → TypeM Class} (known : String → Prop) (wanted : String → Ty → Prop)
    (class_sound : ∀ name span (t : Store), t.Wf → s.Le t →
      Sound φ t (expected name span) (fun c u => c < u.size ∧ known name)
        (fun c => wanted name (φ c))) :
    Sound φ s (elaborateNamed decls env locals expected fs)
      (fun fs' t => fs'.map (·.1) = fs.map (·.1) ∧
        ∀ f' ∈ fs', f'.2.mark.cls < t.size ∧ known f'.1)
      (fun fs' => (∀ f' ∈ fs', HasTy Eq decls env (locals.mapValues φ) (assign φ f'.2)
          (φ f'.2.mark.cls) ∧ wanted f'.1 (φ f'.2.mark.cls)) ∧
        List.Forall₂ Expr.Admits (fs.map (·.2)) ((fs'.map (·.2)).map (assign φ))) := by
  induction fs generalizing s with
  | nil => exact .pure hs ⟨rfl, by simp⟩ ⟨by simp, .nil⟩
  | cons f fs tail =>
    obtain ⟨head, rest⟩ := List.forall_mem_cons.mp ih
    refine .bind (class_sound f.1 _ s hs (.refl s)) fun c t ht le hc => ?_
    refine .bind (head ht ((h.mono le).check hc.1)) fun e' t' ht' le' settled => ?_
    have le := le.trans ht le'
    refine .bind (tail rest ht' (h.mono le) fun name span u hu more =>
      class_sound name span u hu (le.trans ht' more)) fun fs' u hu more bounds => ?_
    refine .pure hu ⟨by simp [bounds.1], ?_⟩ fun many one wants => ⟨?_, ?_⟩
    · refine List.forall_mem_cons.mpr ⟨⟨Nat.lt_of_lt_of_le settled.lt more.size, hc.2⟩, bounds.2⟩
    · refine List.forall_mem_cons.mpr ⟨⟨one.1, ?_⟩, many.1⟩
      rw [settled.goal_eq rfl]
      exact wants
    · exact .cons one.2 many.2

theorem goals_lt {cs : List Class} (lt : ∀ c ∈ cs, c < s.size) :
    ∀ goal ∈ cs.map some, ∀ g ∈ goal, g < s.size := by
  refine List.forall_mem_map.mpr fun c hc g hg => ?_
  cases hg
  exact lt c hc

theorem goals_lt_const {c : Class} (lt : c < s.size) :
    ∀ goal ∈ es.map fun _ => some c, ∀ g ∈ goal, g < s.size := by
  refine List.forall_mem_map.mpr fun _ _ g hg => ?_
  cases hg
  exact lt

/-- The marks of expressions that were elaborated against the classes `cs`. -/
theorem marks_eq {es' : List (Expr Pending)} {cs : List Class} (length : es'.length = cs.length)
    (goals : ∀ x ∈ es'.zip (cs.map some), ∀ g ∈ x.2, x.1.mark.cls = g) :
    es'.map (·.mark.cls) = cs := by
  induction es' generalizing cs with
  | nil =>
    cases cs with
    | nil => rfl
    | cons => cases length
  | cons e es ih =>
    cases cs with
    | nil => cases length
    | cons c cs =>
      obtain ⟨head, tail⟩ := List.forall_mem_cons.mp goals
      rw [List.map_cons, head c rfl, ih (Nat.succ.inj length) tail]

theorem mark_eq {es' : List (Expr Pending)} {c : Class} (length : es'.length = es.length)
    (goals : ∀ x ∈ es'.zip (es.map fun _ => some c), ∀ g ∈ x.2, x.1.mark.cls = g) :
    ∀ e' ∈ es', e'.mark.cls = c := by
  have eq : (es.map fun _ => some c) = (es.map fun _ => c).map some := by simp
  rw [eq] at goals
  have marks := marks_eq (by simp [length]) goals
  intro e' he'
  have mem : e'.mark.cls ∈ es.map fun _ => c := marks ▸ List.mem_map_of_mem he'
  obtain ⟨_, _, same⟩ := List.mem_map.mp mem
  exact same.symm

variable {Γ : Dict Var Ty}

theorem hasTy_zip {es' : List (Expr Pending)}
    (h : ∀ e' ∈ es', HasTy Eq decls env Γ (assign φ e') (φ e'.mark.cls)) :
    ∀ x ∈ (es'.map (assign φ)).zip (es'.map fun e' => φ e'.mark.cls),
      HasTy Eq decls env Γ x.1 x.2 := by
  rw [List.zip_map']
  exact List.forall_mem_map.mpr h

end Lists

theorem admits_assign {e : Expr Mark} {e' : Expr Pending} {t : Store}
    (head : e.head.Admits (assign φ e').head) (settled : Settled goal e.mark e'.mark t)
    (ty : e.mark.ty.Admits (φ e'.mark.cls))
    (children : List.Forall₂ Expr.Admits e.children (e'.children.map (assign φ))) :
    e.Admits (assign φ e') := by
  refine .node head ?_ ?_ ?_
  · rw [assign_mark, settled.span_eq]
  · rw [assign_mark]
    exact ty
  · rw [assign_children]
    exact children

end Ordinance.Typing
