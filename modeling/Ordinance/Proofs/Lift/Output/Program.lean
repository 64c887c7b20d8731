import Ordinance.Lift.Program
import Ordinance.Proofs.Lift.Output.Forms
import Ordinance.Proofs.Program.Basic
import Ordinance.Samples

namespace Ordinance

/-- Where the item and its local definitions stand. -/
def Item.places {μ : Type} : Item μ → List Span
  | definition d => [d.span]
  | scope s => s.span :: s.body.lets.map (·.span)

def Program.spans (p : Program Mark) : List Span :=
  p.items.flatMap Item.places ++ p.exprs.flatMap Expr.spans

def Program.switches (p : Program Mark) : List Switch := p.exprs.flatMap Expr.switches

namespace Lift

/-- The expressions are lifted code for the sources: they stand where these do, and their matches are
those of the sources and matches on options. -/
structure Keeps (sources outs : List (Expr Mark)) : Prop where
  lowered : ∀ d ∈ outs, d.Lowered
  spans : outs.flatMap Expr.spans ⊆ sources.flatMap Expr.spans
  switches : ∃ added, (∀ s ∈ added, Switch.IsOption s) ∧
    (outs.flatMap Expr.switches).Perm (sources.flatMap Expr.switches ++ added)

namespace Keeps

variable {e : Expr Mark} {sources sources' parts outs outs' : List (Expr Mark)}

theorem nil : Keeps [] [] where
  lowered := by simp
  spans := List.Subset.refl _
  switches := ⟨[], by simp, .refl _⟩

theorem append (h : Keeps sources outs) (h' : Keeps sources' outs') :
    Keeps (sources ++ sources') (outs ++ outs') where
  lowered := List.forall_mem_append.mpr ⟨h.lowered, h'.lowered⟩
  spans := by
    simp only [List.flatMap_append]
    exact List.append_subset.mpr ⟨List.subset_append_of_subset_left _ h.spans,
      List.subset_append_of_subset_right _ h'.spans⟩
  switches := exists_options h.switches h'.switches fun s => by
    simp only [List.flatMap_append, List.count_append]
    omega

/-- What is made of the lifted parts of a node is lifted code for the node. -/
theorem node (h : Keeps e.children parts) (emitted : Emits e.mark.span e.switch?.toList parts outs) :
    Keeps [e] outs where
  lowered := emitted.lowered h.lowered
  spans := by
    rw [List.flatMap_singleton, Expr.spans_eq]
    exact List.Subset.trans emitted.spans (List.cons_subset_cons _ h.spans)
  switches := exists_options h.switches emitted.switches fun s => by
    simp only [List.flatMap_singleton, Expr.switches_eq e, List.count_append]
    omega

end Keeps

/-- What the expression is lifted to is lifted code for it. -/
def Kept (e : Expr Mark) : Prop :=
  ∀ (ctx : Ctx) (n : Nat), Lifts n (e.lift ctx) fun out _ => Keeps [e] [out]

variable {ctx : Ctx} {n : Nat} {e : Expr Mark} {es : List (Expr Mark)}

section Parts

theorem liftAll_keeps (h : ∀ e ∈ es, Kept e) :
    Lifts n (Expr.liftAll ctx es) fun outs _ => Keeps es outs := by
  induction es generalizing n with
  | nil => exact .pure .nil
  | cons e es ih =>
    obtain ⟨head, rest⟩ := List.forall_mem_cons.mp h
    refine .bind (head ctx n) fun out k _ hout => ?_
    exact .bind (ih rest) fun outs _ _ houts => .pure (hout.append houts)

theorem liftNamed_keeps {fields : List (String × Expr Mark)}
    (h : ∀ e ∈ fields.map (·.2), Kept e) :
    Lifts n (Expr.liftNamed ctx fields) fun outs _ => Keeps (fields.map (·.2)) (outs.map (·.2)) := by
  induction fields generalizing n with
  | nil => exact .pure .nil
  | cons f fields ih =>
    obtain ⟨head, rest⟩ := List.forall_mem_cons.mp h
    refine .bind (head ctx n) fun out k _ hout => ?_
    exact .bind (ih rest) fun outs _ _ houts => .pure (hout.append houts)

theorem bind_draws (v : Var) (mode : Mode) : Draws n (ctx.bind v mode) fun _ _ => True :=
  .bind (.fresh v.name) fun _ _ _ _ => .pure trivial

theorem bindParams_draws (vs : List Var) : Draws n (ctx.bindParams vs) fun _ _ => True := by
  induction vs generalizing ctx n with
  | nil => exact .pure trivial
  | cons v vs ih =>
    exact .bind (bind_draws v .payload) fun _ _ _ _ => .bind ih fun _ _ _ _ => .pure trivial

/-- The cases keep their names. -/
theorem liftCases_keeps {cases : List (String × Expr Mark)}
    (h : ∀ c ∈ cases.map (·.2), ∀ d ∈ c.children, Kept d) :
    Lifts n (Expr.liftCases ctx cases) fun outs _ =>
      Keeps (cases.map (·.2)) (outs.map (·.2)) ∧ outs.map (·.1) = cases.map (·.1) := by
  induction cases generalizing n with
  | nil => exact .pure ⟨.nil, rfl⟩
  | cons x cases ih =>
    obtain ⟨here, rest⟩ := List.forall_mem_cons.mp h
    rw [Expr.liftCases.eq_def]
    split
    next eq => cases eq
    next name v tys body m _ eq =>
      cases eq
      refine .bind (.supply (bind_draws v .payload)) fun r k _ _ => ?_
      refine .bind (here body List.mem_cons_self r.1 k) fun out k _ hout => ?_
      refine .bind (ih rest) fun outs _ _ houts => .pure ⟨?_, congrArg (name :: ·) houts.2⟩
      have case : Keeps [.lam [v] tys body m] [lambda [r.2] (Ty.liftAll tys) out m.span] :=
        .node hout (.lambda (.same m.span [out]))
      exact case.append houts.1
    next => exact .fail
    next => exact .fail

end Parts

section Nodes

theorem var_kept (v : Var) (m : Mark) : Kept (.var v m) := by
  intro ctx n
  refine .bind (lookup_lifts v m.span) fun b _ _ _ => ?_
  cases b.mode with
  | payload => exact .pure (.node .nil (.wrap (.ref _)))
  | option => exact .pure (.node .nil (.ref _))
  | scope => exact .fail

theorem lam_kept {params : List Var} {tys : List Ty} {body : Expr Mark} (m : Mark)
    (h : Kept body) : Kept (.lam params tys body m) := by
  intro ctx n
  refine lam_lifts ?_ ?_
  · exact (h ctx n).imp fun out _ _ hout => .node hout (.same m.span [out])
  · refine .bind (.supply (bindParams_draws params)) fun r k _ _ => ?_
    exact .bind (h r.1 k) fun out _ _ hout => .pure
      (.node hout (.wrap (.lambda (.same m.span [out]))))

theorem app_kept {f : Expr Mark} {args : List (Expr Mark)} (m : Mark)
    (h : ∀ d ∈ f :: args, Kept d) (below : ∀ d ∈ args, ∀ c ∈ d.children, Kept c) :
    Kept (.app f args m) := by
  intro ctx n
  obtain ⟨hf, hargs⟩ := List.forall_mem_cons.mp h
  by_cases isOp : ∃ o i, f = .op o i
  · obtain ⟨o, i, rfl⟩ := isOp
    have operator : Keeps [.op o i] [] := .node .nil (.same i.span [])
    refine opCall_lifts (fun _ _ => ?_) fun handler => ?_
    · refine .bind (liftAll_keeps hargs) fun outs k _ houts => ?_
      exact listCall_emits.imp fun out _ _ hout => .node (operator.append houts) hout
    · refine .bind (liftAll_keeps hargs) fun outs k _ houts => .supply ?_
      exact (mapAll_emits handler).imp fun out _ _ hout => .node (operator.append houts) hout
  · refine call_lifts (fun o i eq => isOp ⟨o, i, eq⟩) ?_ (fun forced => ?_) fun _ => ?_
    · rintro v i b struct fields k rfl _ _ rfl
      have target : Keeps [.var v i] [] := .node .nil (.same i.span [])
      refine .bind (liftNamed_keeps (below _ List.mem_cons_self)) fun outs _ _ houts => .pure ?_
      have arg : Keeps [.record struct fields k] [.record struct outs (.erased k.span)] :=
        .node houts (.node rfl rfl rfl rfl (.same k.span _))
      exact .node (target.append arg) scopeCall_emits
    · -- the unit value is dropped
      obtain ⟨i, rfl⟩ := eq_of_forces forced
      have unit : Keeps [.lit .unit i] [] := .node .nil (.same i.span [])
      exact (hf ctx n).imp fun out _ _ hout => .node (hout.append unit) (.same m.span [out])
    · refine .bind (hf ctx n) fun g k _ hg => ?_
      refine .bind (liftAll_keeps hargs) fun outs k _ houts => .supply ?_
      exact call_emits.imp fun out _ _ hout => .node (hg.append houts) hout

end Nodes

/-- A node of one part, lifted. -/
theorem Kept.node {d : Expr Mark} {g : Expr Mark → LiftM (Expr Mark)} (h : Kept d)
    (parts : e.children = [d])
    (hg : ∀ out m, Lifts m (g out) fun res _ => Emits e.mark.span e.switch?.toList [out] [res]) :
    Lifts n (d.lift ctx >>= g) fun out _ => Keeps [e] [out] :=
  .bind (h ctx n) fun out m _ hout => (hg out m).imp fun _ _ _ hres =>
    .node (parts ▸ hout) hres

/-- Lifting keeps places and matches: by induction on the expression, with what each form emits for
its lifted parts. -/
theorem lift_keeps (e : Expr Mark) : Kept e := by
  induction e using Expr.inductTwo with
  | node e ih below =>
    intro ctx n
    cases e with
    | var v m => exact var_kept v m ctx n
    | lam params tys body m => exact lam_kept m (ih body List.mem_cons_self) ctx n
    | app f args m => exact app_kept m ih (fun d hd => below d (List.mem_cons_of_mem f hd)) ctx n
    | lit l m => exact .pure (.node .nil (.wrap (.node rfl rfl rfl rfl (.same m.span []))))
    | raise x m =>
      cases x with
      | empty => exact .pure (.node .nil .nothing)
      | _ => exact .pure (.node .nil (.node rfl rfl rfl rfl (.same m.span [])))
    | op o m =>
      rw [Expr.lift]
      split
      · exact .fail
      · rename_i first
        have plain : o ≠ .resolveDefault := by
          rintro rfl
          exact first rfl
        exact .supply ((operator_emits plain).imp fun _ _ _ h => .node .nil h)
    | location l m => exact .fail
    | rescue body x handler m =>
      obtain ⟨hb, hh⟩ : Kept body ∧ Kept handler := by simpa [Expr.children] using ih
      cases x with
      | empty =>
        exact .bind (hb ctx n) fun _ k _ hb => .bind (hh ctx k) fun _ _ _ hh => .supply
          (rescueEmpty_emits.imp fun _ _ _ h => .node (hb.append hh) h)
      | _ =>
        exact .bind (hb ctx n) fun _ k _ hb => .bind (hh ctx k) fun _ _ _ hh => .pure
          (.node (hb.append hh) (.node rfl rfl rfl rfl (.same m.span _)))
    | force e m => exact (ih e List.mem_cons_self).node rfl fun _ _ => .supply force_emits
    | component e index size m =>
      exact (ih e List.mem_cons_self).node rfl fun _ _ => .supply component_emits
    | field e struct name m =>
      exact (ih e List.mem_cons_self).node rfl fun _ _ => .supply field_emits
    | inject enum ctor e m =>
      exact (ih e List.mem_cons_self).node rfl fun _ _ => .supply inject_emits
    | assert e m => exact (ih e List.mem_cons_self).node rfl fun _ _ => .supply assert_emits
    | tuple es m =>
      exact .bind (liftAll_keeps ih) fun _ _ _ hes => .supply
        (tuple_emits.imp fun _ _ _ h => .node hes h)
    | array es m =>
      exact .bind (liftAll_keeps ih) fun _ _ _ hes => .supply
        (array_emits.imp fun _ _ _ h => .node hes h)
    | record struct fields m =>
      exact .bind (liftNamed_keeps ih) fun _ _ _ hfs => .supply
        (record_emits.imp fun _ _ _ h => .node hfs h)
    | ite cond yes no m =>
      obtain ⟨hc, hy, hn⟩ : Kept cond ∧ Kept yes ∧ Kept no := by simpa [Expr.children] using ih
      refine .bind (hc ctx n) fun _ k _ hc => .bind (hy ctx k) fun _ k _ hy => ?_
      exact .bind (hn ctx k) fun _ _ _ hn => .supply
        (ite_emits.imp fun _ _ _ h => .node (hc.append (hy.append hn)) h)
    | default exceptions just cons m =>
      obtain ⟨hes, hj, hc⟩ : (∀ e ∈ exceptions, Kept e) ∧ Kept just ∧ Kept cons := by
        simpa [Expr.children, or_imp, forall_and] using ih
      refine .bind (liftAll_keeps hes) fun _ k _ hes => .bind (hj ctx k) fun _ k _ hj => ?_
      exact .bind (hc ctx k) fun _ _ _ hc => .supply
        (default_emits.imp fun _ _ _ h => .node (hes.append (hj.append hc)) h)
    | switch e enum cases m =>
      obtain ⟨he, _⟩ := List.forall_mem_cons.mp ih
      obtain ⟨_, bodies⟩ := List.forall_mem_cons.mp below
      refine .bind (he ctx n) fun out k _ he => ?_
      refine .bind (liftCases_keeps bodies) fun outs k _ hcases => .supply ?_
      obtain ⟨hcases, names⟩ := hcases
      refine switch_emits.imp fun _ _ _ h => .node (he.append hcases) ?_
      rwa [names] at h

section Programs

theorem letExpr_keeps (l : ScopeLet Mark) :
    Lifts n (letExpr ctx l) fun r _ => Keeps [l.expr] [r.1] := by
  unfold letExpr
  split
  next _ e m _ eq =>
    rw [eq]
    refine .bind (lift_keeps e ctx n) fun out _ _ hout => ?_
    exact .bind (.supply unwrap_emits) fun _ _ _ h => .pure (.node hout h)
  next _ v tys body m _ eq =>
    rw [eq]
    exact .bind (lift_keeps body ctx n) fun out _ _ hout => .pure (.node hout (.same m.span [out]))
  next => exact .fail
  next => exact .bind (lift_keeps l.expr ctx n) fun _ _ _ hout => .pure hout

/-- The local definitions stay where they are and lose their types. -/
theorem lets_keeps (ls : List (ScopeLet Mark)) :
    Lifts n (lets ctx ls) fun r _ => Keeps (ls.map (·.expr)) (r.2.map (·.expr)) ∧
      r.2.map (·.span) = ls.map (·.span) ∧ ∀ l ∈ r.2, l.ty = .any := by
  induction ls generalizing ctx n with
  | nil => exact .pure ⟨.nil, rfl, by simp⟩
  | cons l ls ih =>
    have first : Lifts n (l.lift ctx) fun r _ => Keeps [l.expr] [r.2.expr] ∧
        r.2.span = l.span ∧ r.2.ty = .any :=
      .bind (letExpr_keeps l) fun r _ _ he => .bind (.supply (bind_draws l.var r.2)) fun _ _ _ _ =>
        .pure ⟨he, rfl, rfl⟩
    refine .bind first fun r k _ hl => .bind ih fun r' _ _ hls => .pure ⟨hl.1.append hls.1, ?_, ?_⟩
    · simp [hl.2.1, hls.2.1]
    · exact List.forall_mem_cons.mpr ⟨hl.2.2, hls.2.2⟩

theorem result_keeps (e : Expr Mark) :
    Lifts n (result ctx e) fun out _ => Keeps [e] [out] := by
  cases e with
  | record struct fields m =>
    exact .bind (liftNamed_keeps fun e _ => lift_keeps e) fun outs _ _ houts => .pure
      (.node houts (.node rfl rfl rfl rfl (.same m.span _)))
  | _ => exact .fail

theorem item_keeps (i : Item Mark) :
    Lifts n (i.lift ctx) fun r _ => Keeps i.exprs r.2.exprs ∧ r.2.places = i.places ∧
      ∀ t ∈ r.2.types, t = .any := by
  cases i with
  | definition d =>
    refine .bind (lift_keeps d.expr ctx n) fun out k _ hout => ?_
    refine .bind (.supply (bind_draws d.var .option)) fun r _ _ _ => .pure ⟨hout, rfl, ?_⟩
    exact List.forall_mem_singleton.mpr rfl
  | scope s =>
    have body : Lifts n (s.body.lift ctx) fun b _ =>
        Keeps (Item.scope s).exprs (b.lets.map (·.expr) ++ [b.result]) ∧
          b.lets.map (·.span) = s.body.lets.map (·.span) ∧ ∀ l ∈ b.lets, l.ty = .any := by
      refine .bind (.supply (bind_draws s.body.inputVar .payload)) fun r k _ _ => ?_
      refine .bind (lets_keeps s.body.lets) fun r k _ hls => ?_
      exact .bind (result_keeps s.body.result) fun out _ _ hout => .pure
        ⟨hls.1.append hout, hls.2⟩
    refine .bind body fun b k _ hb => ?_
    refine .bind (.supply (bind_draws s.var .scope)) fun r _ _ _ => .pure ⟨hb.1, ?_, ?_⟩
    · exact congrArg (s.span :: ·) hb.2.1
    · exact List.forall_mem_map.mpr hb.2.2

theorem items_keeps (is : List (Item Mark)) :
    Lifts n (items ctx is) fun out _ => Keeps (is.flatMap Item.exprs) (out.flatMap Item.exprs) ∧
      out.flatMap Item.places = is.flatMap Item.places ∧ ∀ t ∈ out.flatMap Item.types, t = .any := by
  induction is generalizing ctx n with
  | nil => exact .pure ⟨.nil, rfl, by simp⟩
  | cons i is ih =>
    refine .bind (item_keeps i) fun r k _ hi => .bind ih fun out _ _ his => .pure ?_
    refine ⟨hi.1.append his.1, ?_, List.forall_mem_append.mpr ⟨hi.2.2, his.2.2⟩⟩
    rw [List.flatMap_cons, List.flatMap_cons, hi.2.1, his.2.1]

end Programs

/-- What a lifted program consists of. Its expressions have plain nodes only, without types, and call
the handler of defaults on what it expects. Its matches are those of the source and matches on options
with their two cases. Items and local definitions have no types either, and whatever stands in the
program stands where something of the source does. -/
theorem lifted_plain (p l : Program Mark) (n m : Nat) (lifted : p.lift n = (.ok l, m)) :
    (∀ e ∈ l.exprs, e.isHandler = false ∧ ∀ d ∈ e.subterms, d.Plain) ∧
    (∃ added, l.switches.Perm (p.switches ++ added) ∧
      ∀ s ∈ added, s.enum = Optional.enum ∧ s.cases = [Optional.absent, Optional.present]) ∧
    (∀ t ∈ l.types, t = .any) ∧ l.spans ⊆ p.spans := by
  have kept : Lifts n p.lift fun out _ => Keeps p.exprs out.exprs ∧
      out.items.flatMap Item.places = p.items.flatMap Item.places ∧ ∀ t ∈ out.types, t = .any :=
    .bind (items_keeps p.items) fun _ _ _ h => .pure h
  obtain ⟨_, code, places, types⟩ := kept l m lifted
  obtain ⟨added, option, perm⟩ := code.switches
  refine ⟨fun e he => ?_, ⟨added, perm, option⟩, types, ?_⟩
  · exact ⟨(code.lowered e he).notHandler, (code.lowered e he).plain⟩
  · rw [Program.spans, places]
    exact List.append_subset.mpr ⟨List.subset_append_left _ _,
      List.subset_append_of_subset_right _ code.spans⟩

/-- Two definitions, the second by a default, where the handler is called. -/
theorem chain_plain : ∃ l m, (Samples.chain 2 0).1.lift 2 = (.ok l, m) ∧
    (∃ e ∈ l.exprs, ∃ d ∈ e.subterms, d.isHandler = true) ∧
    (∀ e ∈ l.exprs, e.isHandler = false ∧ ∀ d ∈ e.subterms, d.Plain) ∧
    (∀ t ∈ l.types, t = .any) ∧ l.spans ⊆ (Samples.chain 2 0).1.spans := by
  have found : ((Samples.chain 2 0).1.lift 2).1.toOption.any
      (·.exprs.any (·.subterms.any Expr.isHandler)) = true := by
    decide +kernel
  obtain ⟨l, m, lifted, handler⟩ := exists_run found
  obtain ⟨code, _, types, spans⟩ := lifted_plain _ l 2 m lifted
  exact ⟨l, m, lifted, by simpa using handler, code, types, spans⟩

end Lift

end Ordinance
