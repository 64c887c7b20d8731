import Ordinance.Proofs.Lift.Hygiene.Expr
import Ordinance.Proofs.Lift.Typing.Check
import Ordinance.Proofs.Lift.Typing.Program

namespace Ordinance.Lift

section Contexts

variable {ctx : Ctx} {n m : Nat} {seen : List Var}

/-- All variables that stand for others have been seen. -/
def Ctx.Within (ctx : Ctx) (seen : List Var) : Prop :=
  ∀ v b, ctx.get? v = some b → b.target ∈ seen

theorem Ctx.Within.targets (h : ctx.Within seen) (vs : List Var) : ctx.targets vs ⊆ seen := by
  intro x hx
  obtain ⟨v, _, b, bound, rfl⟩ := Ctx.mem_targets.mp hx
  exact h v b bound

theorem bind_within (h : ctx.Within seen) (v : Var) (mode : Mode) :
    Draws n (ctx.bind v mode) fun r m => Adds n m [] [r.2] ∧ r.1.Within (r.2 :: seen) := by
  refine (ctxBind_made v mode).imp fun r m _ hr => ⟨hr.1, fun w b bound => ?_⟩
  rcases List.mem_cons.mp (hr.2 [w] (Ctx.mem_targets.mpr ⟨w, by simp, b, bound, rfl⟩)) with eq | old
  · exact eq ▸ List.mem_cons_self
  · exact List.mem_cons_of_mem _ (h.targets [w] old)

/-- A name that is drawn after what it is given to. -/
theorem Adds.named {k : Nat} {x : Var} {ys : List Var} (h : Adds n k [] ys)
    (hx : Adds k m [] [x]) : Adds n m [] (x :: ys) :=
  (h.append hx).trans (.same m List.perm_append_comm)

end Contexts

section Programs

variable {ctx : Ctx} {n : Nat} {seen : List Var}

theorem letExpr_made (h : ctx.Within seen) (l : ScopeLet Mark) :
    Lifts n (letExpr ctx l) fun r m => Made n m seen [] [r.1] := by
  unfold letExpr
  split
  next =>
    refine .bind (lift_hygienic _ (h.targets _)) fun out k _ hout => ?_
    exact .bind (.supply unwrap_made) fun out' m _ hout' => .pure (hout.trans hout')
  next => exact .bind (lift_hygienic _ (h.targets _)) fun out m _ hout => .pure hout
  next => exact .fail
  next => exact .bind (lift_hygienic _ (h.targets _)) fun out m _ hout => .pure hout

theorem scopeLet_made (h : ctx.Within seen) (l : ScopeLet Mark) :
    Lifts n (l.lift ctx) fun r m => Adds n m [] r.2.binders ∧ r.2.expr.free ⊆ seen ∧
      r.1.Within (r.2.var :: seen) := by
  refine .bind (letExpr_made h l) fun r k _ he => ?_
  refine .bind (.supply (bind_within h l.var r.2)) fun r' m _ hv => .pure ?_
  exact ⟨he.adds.named hv.1, he.free_subset, hv.2⟩

/-- After the local definitions all of them have been seen. -/
theorem lets_made (h : ctx.Within seen) (ls : List (ScopeLet Mark)) :
    Lifts n (lets ctx ls) fun r m => Adds n m [] (r.2.flatMap ScopeLet.binders) ∧
      ∃ all, r.1.Within all ∧
        ∀ result, result.free ⊆ all → ScopeBody.LetsScoped seen r.2 result := by
  induction ls generalizing ctx n seen with
  | nil => exact .pure ⟨.same n (.refl _), seen, h, fun _ sub => sub⟩
  | cons l ls ih =>
    refine .bind (scopeLet_made h l) fun r k _ hl => ?_
    obtain ⟨binders, free, within⟩ := hl
    refine .bind (ih within) fun r' m _ hls => .pure ?_
    obtain ⟨binders', all, within', inScope⟩ := hls
    exact ⟨binders.append binders', all, within', fun result sub => ⟨free, inScope result sub⟩⟩

theorem result_made (h : ctx.Within seen) (e : Expr Mark) :
    Lifts n (result ctx e) fun out m => Made n m seen [] [out] := by
  cases e with
  | record struct fields mark =>
    refine .bind (liftNamed_made (fun e _ => lift_hygienic e) fun _ _ => h.targets _)
      fun outs m _ houts => .pure (.node rfl (List.nil_subset _) houts)
  | _ => exact .fail

theorem scopeBody_made (h : ctx.Within seen) (b : ScopeBody Mark) :
    Lifts n (b.lift ctx) fun out m => Adds n m [] out.binders ∧ out.Scoped seen := by
  refine .bind (.supply (bind_within h b.inputVar .payload)) fun r k _ hi => ?_
  refine .bind (lets_made hi.2 b.lets) fun r' k _ hls => ?_
  obtain ⟨binders, all, within, inScope⟩ := hls
  refine .bind (result_made within b.result) fun out m _ hout => .pure ?_
  exact ⟨hi.1.append (binders.append hout.adds), inScope out hout.free_subset⟩

theorem item_made (h : ctx.Within seen) (i : Item Mark) :
    Lifts n (i.lift ctx) fun r m => Adds n m [] r.2.binders ∧ r.2.Scoped seen ∧
      r.1.Within (r.2.var :: seen) := by
  cases i with
  | definition d =>
    refine .bind (lift_hygienic d.expr (h.targets _)) fun out k _ hout => ?_
    refine .bind (.supply (bind_within h d.var .option)) fun r m _ hv => .pure ?_
    exact ⟨hout.adds.named hv.1, hout.free_subset, hv.2⟩
  | scope s =>
    refine .bind (scopeBody_made h s.body) fun body k _ hbody => ?_
    refine .bind (.supply (bind_within h s.var .scope)) fun r m _ hv => .pure ?_
    exact ⟨hbody.1.named hv.1, hbody.2, hv.2⟩

theorem items_made (h : ctx.Within seen) (is : List (Item Mark)) :
    Lifts n (items ctx is) fun out m => Adds n m [] (out.flatMap Item.binders) ∧
      Item.AllScoped seen out := by
  induction is generalizing ctx n seen with
  | nil => exact .pure ⟨.same n (.refl _), trivial⟩
  | cons i is ih =>
    refine .bind (item_made h i) fun r k _ hi => ?_
    obtain ⟨binders, inScope, within⟩ := hi
    refine .bind (ih within) fun out m _ hout => .pure ?_
    exact ⟨binders.append hout.1, inScope, hout.2⟩

theorem program_made (p : Program Mark) :
    Lifts n p.lift fun out m => Adds n m [] out.binders ∧ out.Scoped := by
  have none : Ctx.Within ∅ [] := fun v b bound => by simp at bound
  exact .bind (items_made none p.items) fun _ _ _ h => .pure h

end Programs

/-- Lifted code is hygienic. Where the context knows numbers below `n` only, all functions of a
lifted expression bind numbers of their own, from `n` up to where the supply ends. A variable that
it refers to is either one of these, and then only where it is bound, or the one that stands for a
variable of the expression. In a lifted program the numbers of items, inputs, local definitions and
functions are all different, and each of them is referred to where it is known only. -/
theorem lifted_hygienic :
    (∀ (ctx : Ctx) (e out : Expr Mark) (n m : Nat),
      (∀ v b, ctx.get? v = some b → b.target.id < n) → e.lift ctx n = (.ok out, m) →
        (out.binders.map Var.id).Nodup ∧ (∀ x ∈ out.binders, n ≤ x.id ∧ x.id < m) ∧
        ∀ x ∈ out.vars, (x ∈ out.binders ∧ x ∉ out.free) ∨
          (x ∉ out.binders ∧ ∃ v ∈ e.vars, ∃ b, ctx.get? v = some b ∧ b.target = x)) ∧
    (∀ (p out : Program Mark) (n m : Nat), p.lift n = (.ok out, m) →
      (out.binders.map Var.id).Nodup ∧ (∀ x ∈ out.binders, n ≤ x.id ∧ x.id < m) ∧ out.Scoped) := by
  constructor
  · intro ctx e out n m below lifted
    obtain ⟨_, made⟩ := lift_hygienic e (List.Subset.refl (ctx.targets e.vars)) out m lifted
    refine ⟨made.adds.nodup, fun x hx => made.adds.bounds hx, fun x hx => ?_⟩
    by_cases free : x ∈ out.free
    · have known := Ctx.mem_targets.mp (made.free_subset free)
      refine .inr ⟨fun bound => ?_, known⟩
      obtain ⟨v, _, b, found, rfl⟩ := known
      have low := below v b found
      have high := (made.adds.bounds bound).1
      omega
    · have bound := (Expr.mem_free_or_mem_binders hx).resolve_left free
      exact .inl ⟨bound, free⟩
  · intro p out n m lifted
    obtain ⟨_, adds, inScope⟩ := program_made p out m lifted
    exact ⟨adds.nodup, fun x hx => adds.bounds hx, inScope⟩

/-- A call of a scope on a delayed value, and a program of three items. -/
theorem wage_hygienic :
    (∃ out m, wageCall.lift wageCtx 5 = (.ok out, m) ∧ (out.binders.map Var.id).Nodup ∧
      ∀ x ∈ out.vars, (x ∈ out.binders ∧ x ∉ out.free) ∨
        (x ∉ out.binders ∧ ∃ v ∈ wageCall.vars, ∃ b, wageCtx.get? v = some b ∧ b.target = x)) ∧
    (∃ out m, payroll.lift 10 = (.ok out, m) ∧ (out.binders.map Var.id).Nodup ∧ out.Scoped) := by
  constructor
  · have found : (wageCall.lift wageCtx 5).1.toOption.any (fun _ => true) = true := by
      decide +kernel
    have below : ∀ v b, wageCtx.get? v = some b → b.target.id < 5 :=
      Dict.forall_get?_iff.mpr (by decide)
    obtain ⟨out, m, lifted, _⟩ := exists_run found
    obtain ⟨nodup, _, occurrences⟩ := lifted_hygienic.1 wageCtx wageCall out 5 m below lifted
    exact ⟨out, m, lifted, nodup, occurrences⟩
  · have found : (payroll.lift 10).1.toOption.any (fun _ => true) = true := by decide +kernel
    obtain ⟨out, m, lifted, _⟩ := exists_run found
    obtain ⟨nodup, _, inScope⟩ := lifted_hygienic.2 payroll out 10 m lifted
    exact ⟨out, m, lifted, nodup, inScope⟩

end Ordinance.Lift
