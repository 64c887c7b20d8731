import Ordinance.Proofs.Typing.Completeness.Lists

namespace Ordinance.Typing.CompleteAt

variable {decls : Decls} {env : Env} {m : Mark}

theorem var (v : Var) : CompleteAt decls env (.var v m) := by
  refine .intro fun Γ r u s φ locals goal filled typed fits h => ?_
  cases filled with
  | var _ =>
    cases typed with
    | var hv _ =>
      refine .bind (announce_completes h fits) fun _ t ψ ext _ => ?_
      have h := h.later ext
      refine .bind (varClass_completes h hv) fun c t ψ ext hc => ?_
      have h := h.later ext
      refine .bind (settle_completes h fits hc) fun p t ψ ext hp => ?_
      exact .pure ext.wf ext.model ⟨rfl, hp, .nil⟩

theorem lit (l : Literal) : CompleteAt decls env (.lit l m) := by
  refine .intro fun Γ r u s φ locals goal filled typed fits h => ?_
  cases filled with
  | lit _ =>
    cases typed with
    | lit _ =>
      refine .bind (announce_completes h fits) fun _ t ψ ext _ => ?_
      have h := h.later ext
      refine .bind (alloc_completes h.wf h.model (by simp [Shape.parts]) fun _ => rfl)
        fun c t ψ ext hc => ?_
      have h := h.later ext
      refine .bind (settle_completes h fits hc) fun p t ψ ext hp => ?_
      exact .pure ext.wf ext.model ⟨rfl, hp, .nil⟩

theorem op (o : Op) : CompleteAt decls env (.op o m) := by
  refine .intro fun Γ r u s φ locals goal filled typed fits h => ?_
  cases filled with
  | op _ =>
    cases typed with
    | op ho _ =>
      refine .bind (announce_completes h fits) fun _ t ψ ext _ => ?_
      have h := h.later ext
      obtain ⟨shapes, _, known, _⟩ := id ho
      rw [known]
      refine .bind (instantiate_completes h.wf h.model known ho) fun c t ψ ext hc => ?_
      have h := h.later ext
      refine .bind (settle_completes h fits hc) fun p t ψ ext hp => ?_
      exact .pure ext.wf ext.model ⟨rfl, hp, .nil⟩

theorem location (l : Location) : CompleteAt decls env (.location l m) := by
  refine .intro fun Γ r u s φ locals goal filled typed fits h => ?_
  cases filled with
  | location _ =>
    cases typed with
    | location hl admits _ =>
      refine .bind (announce_completes h fits) fun _ t ψ ext _ => ?_
      have h := h.later ext
      rw [locationType_run hl, pure_bind]
      refine .bind (load_completes h.wf h.model admits) fun c t ψ ext hc => ?_
      have h := h.later ext
      refine .bind (settle_completes h fits hc) fun p t ψ ext hp => ?_
      exact .pure ext.wf ext.model ⟨rfl, hp, .nil⟩

theorem raise (x : Exn) : CompleteAt decls env (.raise x m) := by
  refine .intro fun Γ r u s φ locals goal filled typed fits h => ?_
  cases filled with
  | raise _ =>
    cases typed with
    | raise _ =>
      refine .bind (announce_completes h fits) fun _ t ψ ext _ => ?_
      have h := h.later ext
      refine .bind (goalOrNew_completes h) fun c t ψ ext hc => ?_
      have h := h.later ext
      refine .bind (conclude_completes h fits hc) fun p t ψ ext hp => ?_
      exact .pure ext.wf ext.model ⟨rfl, hp, .nil⟩

theorem force {e : Expr Mark} (he : CompleteAt decls env e) :
    CompleteAt decls env (.force e m) := by
  refine .intro fun Γ r u s φ locals goal filled typed fits h => ?_
  cases filled with
  | force admits _ =>
    cases typed with
    | force typed _ =>
      refine .bind (announce_completes h fits) fun _ t ψ ext _ => ?_
      have h := h.later ext
      refine .bind (he typed admits h) fun e' t ψ ext re => ?_
      have h := h.later ext
      refine .bind (conclude_completes h fits (re.reads typed)) fun p t ψ ext hp => ?_
      exact .pure ext.wf ext.model ⟨rfl, hp, .cons (ext.records re) .nil⟩

theorem assert {e : Expr Mark} (he : CompleteAt decls env e) :
    CompleteAt decls env (.assert e m) := by
  refine .intro fun Γ r u s φ locals goal filled typed fits h => ?_
  cases filled with
  | assert admits _ =>
    cases typed with
    | assert typed _ =>
      refine .bind (announce_completes h fits) fun _ t ψ ext _ => ?_
      have h := h.later ext
      refine .bind (alloc_completes h.wf h.model (by simp [Shape.parts]) fun _ => rfl)
        fun bool t ψ ext hb => ?_
      have h := h.later ext
      refine .bind (he typed admits (h.check hb)) fun e' t ψ ext re => ?_
      have h := h.later ext
      refine .bind (alloc_completes h.wf h.model (by simp [Shape.parts]) fun _ => rfl)
        fun unit t ψ ext hu => ?_
      have h := h.later ext
      have re := ext.records re
      refine .bind (settle_completes h fits hu) fun p t ψ ext hp => ?_
      exact .pure ext.wf ext.model ⟨rfl, hp, .cons (ext.records re) .nil⟩

theorem rescue {body handler : Expr Mark} (x : Exn) (hb : CompleteAt decls env body)
    (hh : CompleteAt decls env handler) : CompleteAt decls env (.rescue body x handler m) := by
  refine .intro fun Γ r u s φ locals goal filled typed fits h => ?_
  cases filled with
  | rescue admitsBody admitsHandler _ =>
    cases typed with
    | rescue typedBody typedHandler _ =>
      refine .bind (announce_completes h fits) fun _ t ψ ext _ => ?_
      have h := h.later ext
      refine .bind (hb typedBody admitsBody h) fun body' t ψ ext rb => ?_
      have h := h.later ext
      refine .bind (hh typedHandler admitsHandler (h.check (rb.reads typedBody)))
        fun handler' t ψ ext rh => ?_
      have h := h.later ext
      have rb := ext.records rb
      refine .bind (conclude_completes h fits (rb.reads typedBody)) fun p t ψ ext hp => ?_
      exact .pure ext.wf ext.model
        ⟨rfl, hp, .cons (ext.records rb) (.cons (ext.records rh) .nil)⟩

theorem ite {cond yes no : Expr Mark} (hc : CompleteAt decls env cond)
    (hy : CompleteAt decls env yes) (hn : CompleteAt decls env no) :
    CompleteAt decls env (.ite cond yes no m) := by
  refine .intro fun Γ r u s φ locals goal filled typed fits h => ?_
  cases filled with
  | ite admitsCond admitsYes admitsNo _ =>
    cases typed with
    | ite typedCond typedYes typedNo _ =>
      refine .bind (announce_completes h fits) fun _ t ψ ext _ => ?_
      have h := h.later ext
      refine .bind (alloc_completes h.wf h.model (by simp [Shape.parts]) fun _ => rfl)
        fun bool t ψ ext hb => ?_
      have h := h.later ext
      refine .bind (hc typedCond admitsCond (h.check hb)) fun cond' t ψ ext rc => ?_
      have h := h.later ext
      refine .bind (hy typedYes admitsYes h) fun yes' t ψ ext ry => ?_
      have h := h.later ext
      have rc := ext.records rc
      refine .bind (hn typedNo admitsNo (h.check (ry.reads typedYes))) fun no' t ψ ext rn => ?_
      have h := h.later ext
      have rc := ext.records rc
      have ry := ext.records ry
      refine .bind (conclude_completes h fits (ry.reads typedYes)) fun p t ψ ext hp => ?_
      exact .pure ext.wf ext.model ⟨rfl, hp,
        .cons (ext.records rc) (.cons (ext.records ry) (.cons (ext.records rn) .nil))⟩

theorem default {exceptions : List (Expr Mark)} {just cons : Expr Mark}
    (he : ∀ e ∈ exceptions, CompleteAt decls env e) (hj : CompleteAt decls env just)
    (hc : CompleteAt decls env cons) :
    CompleteAt decls env (.default exceptions just cons m) := by
  refine .intro fun Γ r u s φ locals goal filled typed fits h => ?_
  cases filled with
  | default admits admitsJust admitsCons _ =>
    cases typed with
    | default typed typedJust typedCons _ =>
      refine .bind (announce_completes h fits) fun _ t ψ ext _ => ?_
      have h := h.later ext
      refine .bind (hc typedCons admitsCons h) fun cons' t ψ ext rc => ?_
      have h := h.later ext
      have cls := rc.reads typedCons
      refine .bind (elaborateEach_completes he (h.synth u) admits (by simp) (hasTy_const typed)
        (reads_goals_const cls.1 cls.2)) fun exceptions' t ψ ext re => ?_
      have h := h.later ext
      have rc := ext.records rc
      refine .bind (alloc_completes h.wf h.model (by simp [Shape.parts]) fun _ => rfl)
        fun bool t ψ ext hb => ?_
      have h := h.later ext
      have rc := ext.records rc
      have re := ext.recordsAll re
      refine .bind (hj typedJust admitsJust (h.check hb)) fun just' t ψ ext rj => ?_
      have h := h.later ext
      have rc := ext.records rc
      have re := ext.recordsAll re
      refine .bind (conclude_completes h fits (rc.reads typedCons)) fun p t ψ ext hp => ?_
      have re := ext.recordsAll re
      refine .pure ext.wf ext.model ⟨?_, hp, ?_⟩
      · simp [Expr.head, re.length_eq, admits.length_eq]
      · exact List.rel_append re (.cons (ext.records rj) (.cons (ext.records rc) .nil))

theorem app {f : Expr Mark} {args : List (Expr Mark)} (hf : CompleteAt decls env f)
    (ha : ∀ e ∈ args, CompleteAt decls env e) : CompleteAt decls env (.app f args m) := by
  refine .intro fun Γ r u s φ locals goal filled typed fits h => ?_
  cases filled with
  | app admitsFun admits _ =>
    cases typed with
    | @app _ _ _ _ us _ typedFun length typed _ =>
      refine .bind (announce_completes h fits) fun _ t ψ ext _ => ?_
      have h := h.later ext
      refine .bind (hf typedFun admitsFun (h.synth _)) fun f' t ψ ext rf => ?_
      have h := h.later ext
      refine .bind (shapeOf_completes h.wf h.model) fun shape t ψ ext hshape => ?_
      have h := h.later ext
      have rf := ext.records rf
      have cls := rf.reads typedFun
      split
      next params result =>
        have known := hshape.2 (by simp)
        rw [cls.2] at known
        simp only [Shape.map, Ty.ofShape, Ty.arrow.injEq] at known
        obtain ⟨hr, hp⟩ := List.forall_mem_cons.mp hshape.1
        have count : params.length = args.length := by
          simp [admits.length_eq, length, known.1]
        rw [counted_run count, pure_bind]
        refine .bind (elaborateEach_completes ha (h.synth u) admits length typed
          (reads_goals hp known.1.symm)) fun args' t ψ ext ra => ?_
        have h := h.later ext
        have rf := ext.records rf
        refine .bind (settle_completes h fits (ext.carry ⟨hr, known.2.symm⟩)) fun p t ψ ext hp => ?_
        have ra := ext.recordsAll ra
        refine .pure ext.wf ext.model ⟨?_, hp, .cons (ext.records rf) ra⟩
        simp [Expr.head, ra.length_eq, admits.length_eq]
      next =>
        refine .bind (elaborateEach_completes ha (h.synth u) admits length typed (by simp))
          fun args' t ψ ext ra => ?_
        have h := h.later ext
        have rf := ext.records rf
        have new : Completes ψ t (alloc .any m.span) fun c t χ => c < t.size ∧ χ c = u :=
          alloc_completes h.wf h.model (by simp [Shape.parts]) (by simp)
        refine .bind new fun result t ψ ext hr => ?_
        have h := h.later ext
        have rf := ext.records rf
        have ra := ext.recordsAll ra
        obtain ⟨lt, params⟩ := classes_read ra length typed
        have parts : ∀ q ∈ (Shape.arrow (args'.map (·.mark.cls)) result).parts, q < t.size :=
          List.forall_mem_cons.mpr ⟨hr.1, List.forall_mem_map.mpr lt⟩
        have arrow : Completes ψ t (alloc (.arrow (args'.map (·.mark.cls)) result) m.span)
            fun c t χ => c < t.size ∧ χ c = .arrow us u :=
          alloc_completes h.wf h.model parts fun _ => by
            rw [← params, Shape.map, List.map_map, hr.2, Ty.ofShape]
            rfl
        refine .bind arrow fun c t ψ ext hc => ?_
        have h := h.later ext
        have rf := ext.records rf
        have ra := ext.recordsAll ra
        have hr := ext.carry hr
        have cls := rf.reads typedFun
        refine .bind (unify_completes h.wf h.model cls.1 hc.1 (cls.2.trans hc.2.symm))
          fun _ t ψ ext _ => ?_
        have h := h.later ext
        have rf := ext.records rf
        have ra := ext.recordsAll ra
        refine .bind (settle_completes h fits (ext.carry hr)) fun p t ψ ext hp => ?_
        have ra := ext.recordsAll ra
        refine .pure ext.wf ext.model ⟨?_, hp, .cons (ext.records rf) ra⟩
        simp [Expr.head, ra.length_eq, admits.length_eq]

theorem lam {params : List Var} {tys : List Ty} {body : Expr Mark}
    (hb : CompleteAt decls env body) : CompleteAt decls env (.lam params tys body m) := by
  refine .intro fun Γ r u s φ locals goal filled typed fits h => ?_
  cases filled with
  | @lam _ _ tys' _ _ _ _ binders' admits _ =>
    cases typed with
    | @lam _ _ _ _ _ us u count binders typed _ =>
      obtain rfl : tys' = us := by simpa using binders
      replace count := count.trans binders'.length_eq.symm
      refine .bind (announce_completes h fits) fun _ t ψ ext _ => ?_
      replace h := h.later ext
      refine .bind (goalShape_completes h) fun shape t ψ ext hshape => ?_
      replace h := h.later ext
      split
      next g wanted result =>
        have known := hshape.2 rfl (by simp)
        simp only [Shape.map, Ty.ofShape, Ty.arrow.injEq] at known
        obtain ⟨hr, hw⟩ := List.forall_mem_cons.mp hshape.1
        have counts : wanted.length = params.length := by
          rw [count, binders'.length_eq, known.1, List.length_map]
        rw [counted_run counts, pure_bind]
        have hr := And.intro hr known.2.symm
        have wants := And.intro hw known.1.symm
        refine .bind (binders_completes h.wf h.model count binders') fun cs t ψ ext hcs => ?_
        have h := h.later ext
        have hr := ext.carry hr
        have wants := ext.carryAll wants
        have pairs : ∀ x ∈ wanted.zip cs, x.1 < t.size ∧ x.2 < t.size := fun x hx =>
          ⟨wants.1 _ (List.of_mem_zip hx).1, hcs.1 _ (List.of_mem_zip hx).2⟩
        have eqs : ∀ x ∈ wanted.zip cs, ψ x.1 = ψ x.2 :=
          (map_eq_iff_zip.mp (wants.2.trans hcs.2.symm)).2
        refine .bind (unifyEach_completes h.wf h.model pairs eqs) fun _ t ψ ext _ => ?_
        have h := h.later ext
        have hr := ext.carry hr
        have hcs := ext.carryAll hcs
        refine .bind (hb typed admits (hcs.2 ▸ (h.check hr).bind params hcs.1))
          fun body' t ψ ext rb => ?_
        have h := h.later ext
        exact .pure h.wf h.model ⟨rfl, h.marked rfl m, .cons rb .nil⟩
      next =>
        refine .bind (binders_completes h.wf h.model count binders') fun cs t ψ ext hcs => ?_
        have h := h.later ext
        refine .bind (hb typed admits (hcs.2 ▸ (h.synth u).bind params hcs.1))
          fun body' t ψ ext rb => ?_
        have h := h.later ext
        have cls := rb.reads typed
        have hcs := ext.carryAll hcs
        have parts : ∀ q ∈ (Shape.arrow cs body'.mark.cls).parts, q < t.size :=
          List.forall_mem_cons.mpr ⟨cls.1, hcs.1⟩
        have arrow : Completes ψ t (alloc (.arrow cs body'.mark.cls) m.span)
            fun c t χ => c < t.size ∧ χ c = .arrow tys' u :=
          alloc_completes h.wf h.model parts fun _ => by rw [Shape.map, hcs.2, cls.2, Ty.ofShape]
        refine .bind arrow fun c t ψ ext hc => ?_
        have h := h.later ext
        have rb := ext.records rb
        refine .bind (settle_completes h fits hc) fun p t ψ ext hp => ?_
        exact .pure ext.wf ext.model ⟨rfl, hp, .cons (ext.records rb) .nil⟩

end Ordinance.Typing.CompleteAt
