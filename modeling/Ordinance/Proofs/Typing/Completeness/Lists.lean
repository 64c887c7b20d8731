import Ordinance.Proofs.Expr.Instance
import Ordinance.Proofs.Typing.Steps

namespace Ordinance.Typing

/-- `r` is the tree `e` with the types that its classes read as. -/
inductive Records (s : Store) (φ : Class → Ty) : Expr Pending → Expr Mark → Prop
  | node {e : Expr Pending} {r : Expr Mark} : e.head.Admits r.head → e.mark.span = r.mark.span →
      e.mark.cls < s.size ∧ φ e.mark.cls = r.mark.ty →
      List.Forall₂ (Records s φ) e.children r.children → Records s φ e r

section Records

variable {s t : Store} {φ ψ : Class → Ty} {e : Expr Pending} {r : Expr Mark} {u : Ty}
  {decls : Decls} {env : Env} {Γ : Dict Var Ty}

theorem Records.reads (h : Records s φ e r) (typed : HasTy Eq decls env Γ r u) :
    e.mark.cls < s.size ∧ φ e.mark.cls = u := by
  obtain ⟨_, _, mark, _⟩ := h
  exact ⟨mark.1, mark.2.trans typed.fits_mark⟩

theorem Extends.records (ext : Extends s φ t ψ) (h : Records s φ e r) : Records t ψ e r := by
  induction e using Expr.induct generalizing r with
  | node e ih =>
    obtain ⟨head, span, mark, children⟩ := h
    obtain ⟨length, below⟩ := List.forall₂_iff_zip.mp children
    refine .node head span (ext.carry mark) (List.forall₂_iff_zip.mpr ⟨length, fun hx => ?_⟩)
    exact ih _ (List.of_mem_zip hx).1 (below hx)

theorem Extends.recordsAll {es : List (Expr Pending)} {rs : List (Expr Mark)}
    (ext : Extends s φ t ψ) (h : List.Forall₂ (Records s φ) es rs) :
    List.Forall₂ (Records t ψ) es rs := h.imp fun _ _ => ext.records

/-- The classes of trees that types are recorded for. -/
theorem classes_read {es : List (Expr Pending)} {rs : List (Expr Mark)} {us : List Ty}
    (h : List.Forall₂ (Records s φ) es rs) (length : rs.length = us.length)
    (typed : ∀ x ∈ rs.zip us, HasTy Eq decls env Γ x.1 x.2) :
    (∀ e ∈ es, e.mark.cls < s.size) ∧ es.map (fun e => φ e.mark.cls) = us := by
  induction h generalizing us with
  | nil =>
    cases us with
    | nil => simp
    | cons => cases length
  | cons head _ ih =>
    cases us with
    | nil => cases length
    | cons u us =>
      obtain ⟨typed, rest⟩ := List.forall_mem_cons.mp typed
      obtain ⟨lt, eq⟩ := ih (Nat.succ.inj length) rest
      have reads := head.reads typed
      exact ⟨List.forall_mem_cons.mpr ⟨reads.1, lt⟩, by rw [List.map_cons, reads.2, eq]⟩

end Records

variable (decls : Decls) (env : Env)

/-- Whatever types the nodes and binders of `e` can be given: wherever the variables around `e` and
its goal read accordingly, elaboration of `e` succeeds, and the classes read as those types. -/
def CompleteAt (e : Expr Mark) : Prop :=
  ∀ ⦃Γ : Dict Var Ty⦄ ⦃r : Expr Mark⦄ ⦃u : Ty⦄, HasTy Eq decls env Γ r u → e.Admits r →
    ∀ ⦃s : Store⦄ ⦃φ : Class → Ty⦄ ⦃locals : Locals⦄ ⦃goal : Option Class⦄,
      Reads φ s locals goal Γ u →
      Completes φ s (elaborate decls env locals goal e) fun e' t ψ => Records t ψ e' r

/-- The tree that `e` is elaborated to: the node, its mark and its parts. -/
structure Elaborated (e r : Expr Mark) (u : Ty) (e' : Expr Pending) (t : Store) (ψ : Class → Ty) :
    Prop where
  head : e'.head = e.head
  mark : Marked e.mark u e'.mark t ψ
  parts : List.Forall₂ (Records t ψ) e'.children r.children

variable {decls env} {s : Store} {φ : Class → Ty} {locals : Locals} {Γ : Dict Var Ty}

theorem CompleteAt.intro {e : Expr Mark}
    (h : ∀ (Γ : Dict Var Ty) (r : Expr Mark) (u : Ty) (s : Store) (φ : Class → Ty)
      (locals : Locals) (goal : Option Class), e.Filled r → HasTy Eq decls env Γ r u →
      e.mark.ty.Admits u → Reads φ s locals goal Γ u →
      Completes φ s (elaborate decls env locals goal e) (Elaborated e r u)) :
    CompleteAt decls env e := by
  intro Γ r u typed admits s φ locals goal reads
  have filled := admits.filled
  obtain ⟨head, span, fits, _⟩ := admits
  have ty : r.mark.ty = u := typed.fits_mark
  refine (h Γ r u s φ locals goal filled typed (ty ▸ fits) reads).imp fun e' t ψ _ done => ?_
  refine .node (done.head ▸ head) (done.mark.span_eq.trans span) ?_ done.parts
  exact ⟨done.mark.reads.1, done.mark.reads.2.trans ty.symm⟩

theorem elaborateEach_completes {es rs : List (Expr Mark)} {us : List Ty}
    {goals : List (Option Class)} {w : Ty} (ih : ∀ e ∈ es, CompleteAt decls env e)
    (h : Reads φ s locals none Γ w) (admits : List.Forall₂ Expr.Admits es rs)
    (length : rs.length = us.length) (typed : ∀ x ∈ rs.zip us, HasTy Eq decls env Γ x.1 x.2)
    (reads : ∀ x ∈ goals.zip us, ∀ g ∈ x.1, g < s.size ∧ φ g = x.2) :
    Completes φ s (elaborateEach decls env locals goals es) fun es' t ψ =>
      List.Forall₂ (Records t ψ) es' rs := by
  induction admits generalizing s φ us goals with
  | nil => exact .pure h.wf h.model .nil
  | cons head _ tail =>
    cases us with
    | nil => cases length
    | cons u us =>
      obtain ⟨complete, completes⟩ := List.forall_mem_cons.mp ih
      obtain ⟨typed, rest⟩ := List.forall_mem_cons.mp typed
      have here : Reads φ s locals (goals.headD none) Γ u := by
        cases goals with
        | nil => exact h.synth u
        | cons goal goals =>
          obtain ⟨first, _⟩ := List.forall_mem_cons.mp reads
          exact ⟨h.wf, h.model, ⟨h.bounded.local_lt, fun hg => (first _ hg).1⟩, h.locals_eq,
            fun hg => (first _ hg).2⟩
      refine .bind (complete typed head here) fun e' t ψ ext he => ?_
      have later : ∀ x ∈ goals.tail.zip us, ∀ g ∈ x.1, g < t.size ∧ ψ g = x.2 := by
        cases goals with
        | nil => simp
        | cons goal goals =>
          intro x hx g hg
          exact ext.carry ((List.forall_mem_cons.mp reads).2 x hx g hg)
      refine .bind (tail completes (h.later ext) (Nat.succ.inj length) rest later)
        fun es' t ψ ext hes => ?_
      exact .pure ext.wf ext.model (.cons (ext.records he) hes)

/-- The same for named expressions, where the class for each is looked up by its name. -/
theorem elaborateNamed_completes {α : Type} {fs : List (String × Expr Mark)}
    {rs : List (Expr Mark)} {us : List α} (ty : α → Ty) {expected : String → Span → TypeM Class}
    {w : Ty} (ih : ∀ e ∈ fs.map (·.2), CompleteAt decls env e) (h : Reads φ s locals none Γ w)
    (admits : List.Forall₂ Expr.Admits (fs.map (·.2)) rs) (length : rs.length = us.length)
    (typed : ∀ x ∈ rs.zip us, HasTy Eq decls env Γ x.1 (ty x.2))
    (found : ∀ x ∈ (fs.map (·.1)).zip us, ∀ span (t : Store) (ψ : Class → Ty), Extends s φ t ψ →
      Completes ψ t (expected x.1 span) fun c t ψ => c < t.size ∧ ψ c = ty x.2) :
    Completes φ s (elaborateNamed decls env locals expected fs) fun fs' t ψ =>
      fs'.map (·.1) = fs.map (·.1) ∧ List.Forall₂ (Records t ψ) (fs'.map (·.2)) rs := by
  induction fs generalizing s φ rs us with
  | nil =>
    cases admits
    exact .pure h.wf h.model ⟨rfl, .nil⟩
  | cons f fs tail =>
    obtain ⟨r, rs, head, rest, rfl⟩ := List.forall₂_cons_left_iff.mp admits
    cases us with
    | nil => cases length
    | cons u us =>
      obtain ⟨complete, completes⟩ := List.forall_mem_cons.mp ih
      obtain ⟨typed, typedRest⟩ := List.forall_mem_cons.mp typed
      obtain ⟨here, later⟩ := List.forall_mem_cons.mp found
      refine .bind (here f.2.mark.span s φ (.refl h.wf h.model)) fun c t ψ ext hc => ?_
      have h := h.later ext
      refine .bind (complete typed head (h.check hc)) fun e' t' ψ' ext' he => ?_
      have h := h.later ext'
      refine .bind (tail completes h rest (Nat.succ.inj length) typedRest fun x hx span v χ more =>
        later x hx span v χ ((ext.trans ext').trans more)) fun fs' v χ ext hfs => ?_
      exact .pure ext.wf ext.model ⟨by simp [hfs.1], .cons (ext.records he) hfs.2⟩

theorem reads_goals {cs : List Class} {us : List Ty} (lt : ∀ c ∈ cs, c < s.size)
    (eq : cs.map φ = us) : ∀ x ∈ (cs.map some).zip us, ∀ g ∈ x.1, g < s.size ∧ φ g = x.2 := by
  subst eq
  rw [List.zip_map']
  refine List.forall_mem_map.mpr fun c hc g hg => ?_
  cases hg
  exact ⟨lt c hc, rfl⟩

theorem reads_goals_const {α β : Type} {c : Class} {u : Ty} {es : List α} {rs : List β}
    (lt : c < s.size) (eq : φ c = u) : ∀ x ∈ (es.map fun _ => some c).zip (rs.map fun _ => u),
      ∀ g ∈ x.1, g < s.size ∧ φ g = x.2 := by
  intro x hx g hg
  obtain ⟨hc, hu⟩ := List.of_mem_zip hx
  obtain ⟨_, _, eqc⟩ := List.mem_map.mp hc
  obtain ⟨_, _, equ⟩ := List.mem_map.mp hu
  rw [← eqc] at hg
  cases hg
  exact ⟨lt, eq.trans equ⟩

theorem hasTy_const {rs : List (Expr Mark)} {u : Ty} (h : ∀ r ∈ rs, HasTy Eq decls env Γ r u) :
    ∀ x ∈ rs.zip (rs.map fun _ => u), HasTy Eq decls env Γ x.1 x.2 := by
  nth_rw 1 [← List.map_id rs]
  rw [List.zip_map']
  exact List.forall_mem_map.mpr h

end Ordinance.Typing
