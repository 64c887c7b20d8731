import Ordinance.Proofs.Dict
import Ordinance.Proofs.Lift.Hygiene.Forms

namespace Ordinance.Lift

section Contexts

variable {ctx : Ctx} {n : Nat} {vs ws zs : List Var} {x : Var}

/-- The variables that stand for those of the list. -/
def Ctx.targets (ctx : Ctx) (vs : List Var) : List Var :=
  vs.filterMap fun v => (ctx.get? v).map (·.target)

theorem Ctx.mem_targets :
    x ∈ ctx.targets vs ↔ ∃ v ∈ vs, ∃ b, ctx.get? v = some b ∧ b.target = x := by
  simp [Ctx.targets, List.mem_filterMap]

theorem Ctx.targets_mono (h : vs ⊆ ws) : ctx.targets vs ⊆ ctx.targets ws := by
  intro x hx
  obtain ⟨v, hv, bound⟩ := Ctx.mem_targets.mp hx
  exact Ctx.mem_targets.mpr ⟨v, h hv, bound⟩

theorem ctxBind_made (v : Var) (mode : Mode) : Draws n (ctx.bind v mode) fun r m =>
    Adds n m [] [r.2] ∧ ∀ ws, r.1.targets ws ⊆ r.2 :: ctx.targets ws := by
  refine .bind (.fresh v.name) fun target m _ hx => .pure ?_
  obtain ⟨hx, rfl⟩ := hx
  refine ⟨.next hx, fun ws x hx => ?_⟩
  obtain ⟨w, hw, b, bound, rfl⟩ := Ctx.mem_targets.mp hx
  rw [Dict.get?_insert] at bound
  split at bound
  next =>
    cases bound
    exact List.mem_cons_self
  next => exact List.mem_cons_of_mem _ (Ctx.mem_targets.mpr ⟨w, hw, b, bound, rfl⟩)

theorem bindParams_made (vs : List Var) : Draws n (ctx.bindParams vs) fun r m =>
    Adds n m [] r.2 ∧ ∀ ws, r.1.targets ws ⊆ r.2 ++ ctx.targets ws := by
  induction vs generalizing ctx n with
  | nil => exact .pure ⟨.same n (.refl _), fun _ => List.Subset.refl _⟩
  | cons v vs ih =>
    refine .bind (ctxBind_made v .payload) fun r k _ hr => ?_
    refine .bind ih fun r' m _ hr' => .pure ⟨hr.1.append hr'.1, fun ws x hx => ?_⟩
    rcases List.mem_append.mp (hr'.2 ws hx) with hx | hx
    · exact List.mem_cons_of_mem _ (List.mem_append_left _ hx)
    · rcases List.mem_cons.mp (hr.2 ws hx) with rfl | hx
      · exact List.mem_cons_self
      · exact List.mem_cons_of_mem _ (List.mem_append_right _ hx)

end Contexts

/-- The lifted form binds every number that was drawn for it once, and beside its own variables it
refers to none but those that stand for variables of the expression. -/
def Hygienic (e : Expr Mark) : Prop :=
  ∀ ⦃ctx : Ctx⦄ ⦃n zs⦄, ctx.targets e.vars ⊆ zs →
    Lifts n (e.lift ctx) fun out m => Made n m zs [] [out]

variable {ctx : Ctx} {n : Nat} {zs : List Var} {e : Expr Mark} {es : List (Expr Mark)}

section Parts

theorem liftAll_made (h : ∀ e ∈ es, Hygienic e) (sub : ∀ e ∈ es, ctx.targets e.vars ⊆ zs) :
    Lifts n (Expr.liftAll ctx es) fun outs m => Made n m zs [] outs := by
  induction es generalizing n with
  | nil => exact .pure (.same n zs [])
  | cons e es ih =>
    obtain ⟨head, rest⟩ := List.forall_mem_cons.mp h
    obtain ⟨sub, subs⟩ := List.forall_mem_cons.mp sub
    refine .bind (head sub) fun out k _ hout => ?_
    exact .bind (ih rest subs) fun outs m _ houts => .pure (hout.append houts)

theorem liftNamed_made {fields : List (String × Expr Mark)}
    (h : ∀ e ∈ fields.map (·.2), Hygienic e)
    (sub : ∀ e ∈ fields.map (·.2), ctx.targets e.vars ⊆ zs) :
    Lifts n (Expr.liftNamed ctx fields) fun outs m => Made n m zs [] (outs.map (·.2)) := by
  induction fields generalizing n with
  | nil => exact .pure (.same n zs [])
  | cons f fields ih =>
    obtain ⟨head, rest⟩ := List.forall_mem_cons.mp h
    obtain ⟨sub, subs⟩ := List.forall_mem_cons.mp sub
    refine .bind (head sub) fun out k _ hout => ?_
    exact .bind (ih rest subs) fun outs m _ houts => .pure (hout.append houts)

/-- The body of a function, under the variables that stand for its own. -/
theorem body_made {α : Type} {g : List Var → Expr Mark → LiftM α} {Q : α → Nat → Prop}
    {body : Expr Mark} (vs : List Var) (h : Hygienic body) (sub : ctx.targets body.vars ⊆ zs)
    (hg : ∀ xs out m, (∀ tys span, Made n m zs [] [lambda xs tys out span]) →
      Lifts m (g xs out) Q) :
    Lifts n (liftM (ctx.bindParams vs) >>= fun r => body.lift r.1 >>= g r.2) Q := by
  refine .bind (.supply (bindParams_made vs)) fun r k _ hr => ?_
  obtain ⟨params, known⟩ := hr
  have sub : r.1.targets body.vars ⊆ r.2 ++ zs := fun x hx =>
    List.append_subset.mpr ⟨List.subset_append_left _ _,
      List.subset_append_of_subset_right _ sub⟩ (known _ hx)
  exact .bind (h sub) fun out m _ hout => hg r.2 out m fun _ _ => .lambda params hout

theorem liftCases_made {cases : List (String × Expr Mark)}
    (h : ∀ c ∈ cases.map (·.2), ∀ d ∈ c.children, Hygienic d)
    (sub : ∀ c ∈ cases.map (·.2), ctx.targets c.vars ⊆ zs) :
    Lifts n (Expr.liftCases ctx cases) fun outs m => Made n m zs [] (outs.map (·.2)) := by
  induction cases generalizing n with
  | nil => exact .pure (.same n zs [])
  | cons x cases ih =>
    obtain ⟨here, rest⟩ := List.forall_mem_cons.mp h
    obtain ⟨sub, subs⟩ := List.forall_mem_cons.mp sub
    obtain ⟨name, c⟩ := x
    cases c with
    | lam vs tys body mark =>
      match vs with
      | [] => exact .fail
      | _ :: _ :: _ => exact .fail
      | [v] =>
        have inside : ctx.targets body.vars ⊆ zs := fun x hx =>
          sub (Ctx.targets_mono (Expr.vars_subset List.mem_cons_self) hx)
        refine body_made [v] (g := fun xs body => Expr.liftCases ctx cases >>= fun es =>
          pure ((name, lambda xs (Ty.liftAll tys) body mark.span) :: es))
          (here body List.mem_cons_self) inside fun xs out k hout => ?_
        exact .bind (ih rest subs) fun outs m _ houts => .pure ((hout _ _).append houts)
    | _ => exact .fail

end Parts

section Nodes

theorem var_hygienic (v : Var) (mark : Mark) : Hygienic (.var v mark) := by
  intro ctx n zs sub
  refine .bind (lookup_lifts v mark.span) fun b k _ hb => ?_
  obtain ⟨rfl, bound⟩ := hb
  have target : b.target ∈ zs :=
    sub (Ctx.mem_targets.mpr ⟨v, Expr.named_subset _ List.mem_cons_self, b, bound, rfl⟩)
  cases b.mode with
  | payload => exact .pure (.wrap (.ref target))
  | option => exact .pure (.ref target)
  | scope => exact .fail

theorem lam_hygienic {params : List Var} {tys : List Ty} {body : Expr Mark} (mark : Mark)
    (h : Hygienic body) : Hygienic (.lam params tys body mark) := by
  intro ctx n zs sub
  have inside : ctx.targets body.vars ⊆ zs := fun x hx =>
    sub (Ctx.targets_mono (Expr.vars_subset List.mem_cons_self) hx)
  refine lam_lifts (h inside) ?_
  exact body_made params (g := fun xs body => pure (wrap (lambda xs (Ty.liftAll tys) body _) _))
    h inside fun xs out m hout => .pure (.wrap (hout _ _))

theorem app_hygienic {f : Expr Mark} {args : List (Expr Mark)} (mark : Mark)
    (h : ∀ d ∈ f :: args, Hygienic d) (below : ∀ d ∈ args, ∀ c ∈ d.children, Hygienic c) :
    Hygienic (.app f args mark) := by
  intro ctx n zs sub
  obtain ⟨hf, hargs⟩ := List.forall_mem_cons.mp h
  have part : ∀ d ∈ f :: args, ctx.targets d.vars ⊆ zs := fun d hd x hx =>
    sub (Ctx.targets_mono (Expr.vars_subset (e := .app f args mark) hd) hx)
  obtain ⟨subf, subargs⟩ := List.forall_mem_cons.mp part
  by_cases isOp : ∃ o i, f = .op o i
  · obtain ⟨o, i, rfl⟩ := isOp
    refine opCall_lifts (fun _ _ => ?_) fun _ => ?_
    · refine .bind (liftAll_made hargs subargs) fun outs k _ houts => ?_
      exact listCall_made.imp fun out m _ hout => houts.trans hout
    · refine .bind (liftAll_made hargs subargs) fun outs k _ houts => .supply ?_
      exact mapAll_made.imp fun out m _ hout => houts.trans hout
  · refine call_lifts (fun o i eq => isOp ⟨o, i, eq⟩) ?_ (fun _ => hf subf) fun _ => ?_
    · rintro v i b struct fields k rfl bound _ rfl
      have target : b.target ∈ zs :=
        subf (Ctx.mem_targets.mpr ⟨v, Expr.named_subset _ List.mem_cons_self, b, bound, rfl⟩)
      have fieldsBelow : ∀ e ∈ fields.map (·.2), ctx.targets e.vars ⊆ zs := fun e he x hx =>
        subargs _ List.mem_cons_self (Ctx.targets_mono
          (Expr.vars_subset (e := .record struct fields k) he) hx)
      exact .bind (liftNamed_made (below _ List.mem_cons_self) fieldsBelow)
        fun outs m _ houts => .pure (houts.trans (scopeCall_made target))
    · refine .bind (hf subf) fun g k _ hg => ?_
      refine .bind (liftAll_made hargs subargs) fun outs m _ houts => .supply ?_
      exact call_made.imp fun out m _ hout => (hg.append houts).trans hout

end Nodes

/-- One part of a node, lifted. -/
theorem Hygienic.bind {α : Type} {d : Expr Mark} {g : Expr Mark → LiftM α} {Q : α → Nat → Prop}
    (h : Hygienic d) (sub : ctx.targets d.vars ⊆ zs)
    (hg : ∀ out m, Made n m zs [] [out] → Lifts m (g out) Q) : Lifts n (d.lift ctx >>= g) Q :=
  .bind (h sub) fun out m _ hout => hg out m hout

/-- Lifting is hygienic: by induction on the expression. The parts draw their numbers one after
another, so what they bind is told apart by where their numbers lie. -/
theorem lift_hygienic (e : Expr Mark) : Hygienic e := by
  induction e using Expr.inductTwo with
  | node e ih below =>
    intro ctx n zs sub
    have part : ∀ d ∈ e.children, ctx.targets d.vars ⊆ zs := fun d hd x hx =>
      sub (Ctx.targets_mono (Expr.vars_subset hd) hx)
    cases e with
    | var v m => exact var_hygienic v m sub
    | lam params tys body m => exact lam_hygienic m (ih body List.mem_cons_self) sub
    | app f args m =>
      exact app_hygienic m ih (fun d hd => below d (List.mem_cons_of_mem f hd)) sub
    | lit l m => exact .pure (.wrap (.node rfl (List.nil_subset _) (.same n zs [])))
    | raise x m =>
      cases x with
      | empty => exact .pure .nothing
      | _ => exact .pure (.node rfl (List.nil_subset _) (.same n zs []))
    | op o m =>
      rw [Expr.lift]
      split
      · exact .fail
      · exact .supply operator_made
    | location l m => exact .fail
    | rescue body x handler m =>
      have hb := ih body List.mem_cons_self
      have hh := ih handler (List.mem_cons_of_mem _ List.mem_cons_self)
      have subb := part body List.mem_cons_self
      have subh := part handler (List.mem_cons_of_mem _ List.mem_cons_self)
      cases x with
      | empty =>
        exact hb.bind subb fun _ k hb => hh.bind subh fun _ k hh => .supply
          (rescueEmpty_made.imp fun _ _ _ h => (hb.append hh).trans h)
      | _ =>
        exact hb.bind subb fun _ k hb => hh.bind subh fun _ k hh => .pure
          (.node rfl (List.nil_subset _) (hb.append hh))
    | force e m =>
      exact (ih e List.mem_cons_self).bind (part e List.mem_cons_self) fun _ k he => .supply
        (force_made.imp fun _ _ _ h => he.trans h)
    | component e index size m =>
      exact (ih e List.mem_cons_self).bind (part e List.mem_cons_self) fun _ k he => .supply
        (component_made.imp fun _ _ _ h => he.trans h)
    | field e struct name m =>
      exact (ih e List.mem_cons_self).bind (part e List.mem_cons_self) fun _ k he => .supply
        (field_made.imp fun _ _ _ h => he.trans h)
    | inject enum ctor e m =>
      exact (ih e List.mem_cons_self).bind (part e List.mem_cons_self) fun _ k he => .supply
        (inject_made.imp fun _ _ _ h => he.trans h)
    | assert e m =>
      exact (ih e List.mem_cons_self).bind (part e List.mem_cons_self) fun _ k he => .supply
        (assert_made.imp fun _ _ _ h => he.trans h)
    | tuple es m =>
      exact .bind (liftAll_made ih part) fun _ k _ hes => .supply
        (tuple_made.imp fun _ _ _ h => hes.trans h)
    | array es m =>
      exact .bind (liftAll_made ih part) fun _ k _ hes => .supply
        (array_made.imp fun _ _ _ h => hes.trans h)
    | record struct fields m =>
      exact .bind (liftNamed_made ih part) fun _ k _ hfs => .supply
        (record_made.imp fun _ _ _ h => hfs.trans h)
    | ite cond yes no m =>
      obtain ⟨hc, hy, hn⟩ : Hygienic cond ∧ Hygienic yes ∧ Hygienic no := by
        simpa [Expr.children] using ih
      obtain ⟨subc, suby, subn⟩ : ctx.targets cond.vars ⊆ zs ∧ ctx.targets yes.vars ⊆ zs ∧
        ctx.targets no.vars ⊆ zs := by simpa [Expr.children] using part
      exact hc.bind subc fun _ k hc => hy.bind suby fun _ k hy => hn.bind subn fun _ k hn => .supply
        (ite_made.imp fun _ _ _ h => (hc.append (hy.append hn)).trans h)
    | default exceptions just cons m =>
      obtain ⟨hes, hj, hc⟩ : (∀ e ∈ exceptions, Hygienic e) ∧ Hygienic just ∧ Hygienic cons := by
        simpa [Expr.children, or_imp, forall_and] using ih
      obtain ⟨subes, subj, subc⟩ : (∀ e ∈ exceptions, ctx.targets e.vars ⊆ zs) ∧
          ctx.targets just.vars ⊆ zs ∧ ctx.targets cons.vars ⊆ zs := by
        simpa [Expr.children, or_imp, forall_and] using part
      refine .bind (liftAll_made hes subes) fun _ k _ hes => ?_
      exact hj.bind subj fun _ k hj => hc.bind subc fun _ k hc => .supply
        (default_made.imp fun _ _ _ h => (hes.append (hj.append hc)).trans h)
    | switch e enum cases m =>
      obtain ⟨he, _⟩ := List.forall_mem_cons.mp ih
      obtain ⟨sube, subs⟩ := List.forall_mem_cons.mp part
      obtain ⟨_, bodies⟩ := List.forall_mem_cons.mp below
      refine he.bind sube fun _ k he => ?_
      exact .bind (liftCases_made bodies subs) fun _ k _ hcases => .supply
        (switch_made.imp fun _ _ _ h => (he.append hcases).trans h)

/-- Numbers are only drawn and never given back. -/
theorem lift_draws (e : Expr Mark) : Lifts n (e.lift ctx) fun _ _ => True :=
  (lift_hygienic e (List.Subset.refl _)).imp fun _ _ _ _ => trivial

end Ordinance.Lift
