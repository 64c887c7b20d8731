import Ordinance.Proofs.Typing.Completeness.Lists

namespace Ordinance.Typing.CompleteAt

variable {decls : Decls} {env : Env} {m : Mark}

theorem array {es : List (Expr Mark)} (he : ∀ e ∈ es, CompleteAt decls env e) :
    CompleteAt decls env (.array es m) := by
  refine .intro fun Γ r u s φ locals goal filled typed fits h => ?_
  cases filled with
  | @array _ rs _ _ admits _ =>
    cases typed with
    | @array _ _ _ u typed _ =>
      refine .bind (announce_completes h fits) fun _ t ψ ext _ => ?_
      have h := h.later ext
      have new : Completes ψ t (alloc .any m.span) fun c t χ => c < t.size ∧ χ c = u :=
        alloc_completes h.wf h.model (by simp [Shape.parts]) (by simp)
      refine .bind new fun item t ψ ext hi => ?_
      have h := h.later ext
      have array {t : Store} {ψ : Class → Ty} (ht : t.Wf) (model : t.Model ψ)
          (hi : item < t.size ∧ ψ item = u) : Completes ψ t (alloc (.array item) m.span)
            fun c t χ => c < t.size ∧ χ c = .array u :=
        alloc_completes ht model (by simpa [Shape.parts] using hi.1) fun _ => by
          rw [Shape.map, hi.2, Ty.ofShape]
      have count {es' : List (Expr Pending)} {t : Store} {ψ : Class → Ty}
          (re : List.Forall₂ (Records t ψ) es' rs) : es'.length = es.length :=
        re.length_eq.trans admits.length_eq.symm
      cases goal with
      | some g =>
        refine .bind (array h.wf h.model hi) fun c t ψ ext hc => ?_
        have h := h.later ext
        have hi := ext.carry hi
        have eq : ψ g = ψ c := (h.goal_eq rfl).trans hc.2.symm
        refine .bind (unify_completes h.wf h.model (h.bounded.goal_lt rfl) hc.1 eq)
          fun _ t ψ ext _ => ?_
        have h := h.later ext
        have hi := ext.carry hi
        refine .bind (elaborateEach_completes he (h.synth u) admits (by simp) (hasTy_const typed)
          (reads_goals_const hi.1 hi.2)) fun es' t ψ ext re => ?_
        have h := h.later ext
        exact .pure h.wf h.model ⟨congrArg Expr.Head.array (count re), h.marked rfl m, re⟩
      | none =>
        refine .bind (elaborateEach_completes he (h.synth u) admits (by simp) (hasTy_const typed)
          (reads_goals_const hi.1 hi.2)) fun es' t ψ ext re => ?_
        have h := h.later ext
        refine .bind (array h.wf h.model (ext.carry hi)) fun c t ψ ext hc => ?_
        have h := h.later ext
        have re := ext.recordsAll re
        refine .bind (conclude_completes h fits hc) fun p t ψ ext hp => ?_
        exact .pure ext.wf ext.model
          ⟨congrArg Expr.Head.array (count re), hp, ext.recordsAll re⟩

theorem tuple {es : List (Expr Mark)} (he : ∀ e ∈ es, CompleteAt decls env e) :
    CompleteAt decls env (.tuple es m) := by
  refine .intro fun Γ r u s φ locals goal filled typed fits h => ?_
  cases filled with
  | @tuple _ rs _ _ admits _ =>
    cases typed with
    | @tuple _ _ _ us length typed _ =>
      refine .bind (announce_completes h fits) fun _ t ψ ext _ => ?_
      replace h := h.later ext
      refine .bind (goalShape_completes h) fun shape t ψ ext hshape => ?_
      replace h := h.later ext
      have count {es' : List (Expr Pending)} {t : Store} {ψ : Class → Ty}
          (re : List.Forall₂ (Records t ψ) es' rs) : es'.length = es.length :=
        re.length_eq.trans admits.length_eq.symm
      split
      next g cs found =>
        obtain ⟨rfl, _⟩ := tupleParts_eq found
        have known := hshape.2 rfl (by simp)
        simp only [Shape.map, Ty.ofShape, Ty.tuple.injEq] at known
        refine .bind (elaborateEach_completes he (h.synth (.tuple us)) admits length typed
          (reads_goals hshape.1 known.symm)) fun es' t ψ ext re => ?_
        have h := h.later ext
        exact .pure h.wf h.model ⟨congrArg Expr.Head.tuple (count re), h.marked rfl m, re⟩
      next =>
        refine .bind (elaborateEach_completes he (h.synth (.tuple us)) admits length typed
          (by simp)) fun es' t ψ ext re => ?_
        have h := h.later ext
        obtain ⟨lt, reads⟩ := classes_read re length typed
        have parts : ∀ q ∈ (Shape.tuple (es'.map (·.mark.cls))).parts, q < t.size :=
          List.forall_mem_map.mpr lt
        have new : Completes ψ t (alloc (.tuple (es'.map (·.mark.cls))) m.span)
            fun c t χ => c < t.size ∧ χ c = .tuple us :=
          alloc_completes h.wf h.model parts fun _ => by
            rw [← reads, Shape.map, List.map_map, Ty.ofShape]
            rfl
        refine .bind new fun c t ψ ext hc => ?_
        have h := h.later ext
        have re := ext.recordsAll re
        refine .bind (settle_completes h fits hc) fun p t ψ ext hp => ?_
        exact .pure ext.wf ext.model
          ⟨congrArg Expr.Head.tuple (count re), hp, ext.recordsAll re⟩

theorem component {e : Expr Mark} (index size : Nat) (he : CompleteAt decls env e) :
    CompleteAt decls env (.component e index size m) := by
  refine .intro fun Γ r u s φ locals goal filled typed fits h => ?_
  cases filled with
  | component admits _ =>
    cases typed with
    | @component _ _ _ _ _ us _ typed length found _ =>
      subst length
      have lt : index < us.length := (List.getElem?_eq_some_iff.mp found).1
      refine .bind (announce_completes h fits) fun _ t ψ ext _ => ?_
      have h := h.later ext
      rw [if_pos lt]
      refine .bind (allocMany_completes h.wf h.model us) fun cs t ψ ext hcs => ?_
      have h := h.later ext
      have parts : ∀ q ∈ (Shape.tuple cs).parts, q < t.size := hcs.1
      have new : Completes ψ t (alloc (.tuple cs) m.span)
          fun c t χ => c < t.size ∧ χ c = .tuple us :=
        alloc_completes h.wf h.model parts fun _ => by rw [Shape.map, hcs.2, Ty.ofShape]
      refine .bind new fun c t' ψ' ext hc => ?_
      have h := h.later ext
      have item : cs.getD index c < t.size ∧ ψ (cs.getD index c) = u := by
        have lt : index < cs.length := by
          rw [← hcs.2] at lt
          simpa using lt
        have here : cs[index]? = some (cs.getD index c) := by simp [lt]
        refine ⟨hcs.1 _ (List.mem_of_getElem? here), ?_⟩
        rw [← hcs.2, List.getElem?_map, here] at found
        exact Option.some.inj found
      have item := ext.carry item
      refine .bind (he typed admits (h.check hc)) fun e' t ψ ext re => ?_
      have h := h.later ext
      refine .bind (settle_completes h fits (ext.carry item)) fun p t ψ ext hp => ?_
      exact .pure ext.wf ext.model ⟨rfl, hp, .cons (ext.records re) .nil⟩

theorem field {e : Expr Mark} (struct name : String) (he : CompleteAt decls env e) :
    CompleteAt decls env (.field e struct name m) := by
  refine .intro fun Γ r u s φ locals goal filled typed fits h => ?_
  cases filled with
  | field admits _ =>
    cases typed with
    | field known found loads typed _ =>
      refine .bind (announce_completes h fits) fun _ t ψ ext _ => ?_
      have h := h.later ext
      rw [resolved_run known, pure_bind, resolved_run found, pure_bind]
      refine .bind (alloc_completes h.wf h.model (by simp [Shape.parts]) fun _ => rfl)
        fun record t ψ ext hr => ?_
      have h := h.later ext
      refine .bind (he typed admits (h.check hr)) fun e' t ψ ext re => ?_
      have h := h.later ext
      refine .bind (load_completes h.wf h.model loads) fun c t ψ ext hc => ?_
      have h := h.later ext
      have re := ext.records re
      refine .bind (settle_completes h fits hc) fun p t ψ ext hp => ?_
      exact .pure ext.wf ext.model ⟨rfl, hp, .cons (ext.records re) .nil⟩

theorem record {struct : String} {fields : List (String × Expr Mark)}
    (he : ∀ e ∈ fields.map (·.2), CompleteAt decls env e) :
    CompleteAt decls env (.record struct fields m) := by
  refine .intro fun Γ r u s φ locals goal filled typed fits h => ?_
  cases filled with
  | record same admits _ =>
    cases typed with
    | @record _ _ _ _ layout us known names loads typed _ =>
      refine .bind (announce_completes h fits) fun _ t ψ ext _ => ?_
      have h := h.later ext
      rw [resolved_run known, pure_bind]
      have size : fields.length = layout.size := by
        have := congrArg List.length (same.trans names)
        simpa [Dict.keys, Dict.size] using this
      refine .bind (elaborateNamed_completes id he (h.synth (.struct struct)) admits
        (fields_length names loads) typed fun x hx span t χ ext => ?_) fun fields'' t ψ ext re => ?_
      · obtain ⟨w, found, loads⟩ :=
          Dict.exists_of_forall₂_values (same.trans names) (Ty.admitsAll_iff.mp loads) x hx
        rw [resolved_run found]
        exact load_completes ext.wf ext.model loads
      · have h := h.later ext
        have count : fields''.length = fields.length := by
          simpa using congrArg List.length re.1
        rw [counted_run (size.symm.trans count.symm), pure_bind]
        refine .bind (alloc_completes h.wf h.model (by simp [Shape.parts]) fun _ => rfl)
          fun c t ψ ext hc => ?_
        have h := h.later ext
        have parts := ext.recordsAll re.2
        refine .bind (settle_completes h fits hc) fun p t ψ ext hp => ?_
        exact .pure ext.wf ext.model
          ⟨congrArg (Expr.Head.record struct) re.1, hp, ext.recordsAll parts⟩

theorem switch {e : Expr Mark} {enum : String} {cases : List (String × Expr Mark)}
    (he : CompleteAt decls env e) (hc : ∀ c ∈ cases.map (·.2), CompleteAt decls env c) :
    CompleteAt decls env (.switch e enum cases m) := by
  refine .intro fun Γ r u s φ locals goal filled typed fits h => ?_
  cases filled with
  | @switch _ _ _ _ _ _ cases' admits same admitsCases _ =>
    cases typed with
    | @switch _ _ _ _ _ w payloads _ enumerates typed typedCases _ =>
      refine .bind (announce_completes h fits) fun _ t ψ ext _ => ?_
      have h := h.later ext
      refine .bind (goalOrNew_completes h) fun result t ψ ext hr => ?_
      have h := h.later ext
      refine .bind (enumClasses_completes h.wf h.model enumerates) fun x t ψ ext hcls => ?_
      obtain ⟨lt, read, keys, bound, values⟩ := hcls
      have h := h.later ext
      have hr := ext.carry hr
      refine .bind (he typed admits (h.check ⟨lt, read⟩)) fun e' t' ψ' ext re => ?_
      have h := h.later ext
      have hr := ext.carry hr
      have length : (cases'.map (·.2)).length = payloads.length := by
        simpa using enumerates.length_eq
      have payload : List.Forall₂ (fun c v => c < t'.size ∧ ψ' c = v) x.2.values payloads := by
        rw [← values, List.forall₂_map_right_iff]
        exact List.forall₂_same.mpr fun c hmem => ext.carry ⟨bound c hmem, rfl⟩
      refine .bind (elaborateNamed_completes (fun v => .arrow [v] u) hc (h.synth u) admitsCases
        length typedCases fun x hx span t χ ext => ?_) fun cases'' t ψ ext rc => ?_
      · obtain ⟨c, found, hcls⟩ :=
          Dict.exists_of_forall₂_values (same.trans keys.symm) payload x hx
        rw [resolved_run found, pure_bind]
        have hcls := ext.carry hcls
        have hr := ext.carry hr
        refine alloc_completes ext.wf ext.model ?_ fun _ => ?_
        · simpa [Shape.parts] using ⟨hr.1, hcls.1⟩
        · simp [Shape.map, Ty.ofShape, hcls.2, hr.2]
      · have h := h.later ext
        have re := ext.records re
        have size : x.2.size = cases''.length := by
          have := congrArg List.length (keys.trans (same.symm.trans rc.1.symm))
          simpa [Dict.keys, Dict.size] using this
        rw [counted_run size, pure_bind]
        refine .bind (conclude_completes h fits (ext.carry hr)) fun p t ψ ext hp => ?_
        exact .pure ext.wf ext.model
          ⟨congrArg (Expr.Head.switch enum) rc.1, hp, .cons (ext.records re) (ext.recordsAll rc.2)⟩

theorem inject {e : Expr Mark} (enum ctor : String) (he : CompleteAt decls env e) :
    CompleteAt decls env (.inject enum ctor e m) := by
  refine .intro fun Γ r u s φ locals goal filled typed fits h => ?_
  cases filled with
  | inject admits _ =>
    cases typed with
    | @inject _ _ _ _ _ names payloads v _ enumerates mem typed _ =>
      refine .bind (announce_completes h fits) fun _ t ψ ext _ => ?_
      replace h := h.later ext
      cases enumerates with
      | optional w =>
        rw [if_pos rfl]
        have cases : (ctor = Optional.absent ∧ v = .unit) ∨ (ctor = Optional.present ∧ v = w) := by
          simpa using mem
        have option {t : Store} {ψ : Class → Ty} (ht : t.Wf) (model : t.Model ψ) {c : Class}
            (hc : c < t.size ∧ ψ c = w) : Completes ψ t (alloc (.option c) m.span)
              fun c t χ => c < t.size ∧ χ c = .option w :=
          alloc_completes ht model (by simpa [Shape.parts] using hc.1) fun _ => by
            rw [Shape.map, hc.2, Ty.ofShape]
        rcases cases with ⟨rfl, rfl⟩ | ⟨rfl, rfl⟩
        · rw [if_pos rfl]
          refine .bind (alloc_completes h.wf h.model (by simp [Shape.parts]) fun _ => rfl)
            fun unit t ψ ext hu => ?_
          have h := h.later ext
          refine .bind (he typed admits (h.check hu)) fun e' t ψ ext re => ?_
          have h := h.later ext
          have new : Completes ψ t (alloc .any m.span) fun c t χ => c < t.size ∧ χ c = w :=
            alloc_completes h.wf h.model (by simp [Shape.parts]) (by simp)
          refine .bind new fun payload t ψ ext hp => ?_
          have h := h.later ext
          have re := ext.records re
          refine .bind (option h.wf h.model hp) fun c t ψ ext hc => ?_
          have h := h.later ext
          have re := ext.records re
          refine .bind (settle_completes h fits hc) fun p t ψ ext hp => ?_
          exact .pure ext.wf ext.model ⟨rfl, hp, .cons (ext.records re) .nil⟩
        · rw [if_neg (by decide), if_pos rfl]
          refine .bind (goalShape_completes h) fun shape t ψ ext hshape => ?_
          replace h := h.later ext
          split
          next g payload =>
            have known := hshape.2 rfl (by simp)
            simp only [Shape.map, Ty.ofShape, Ty.option.injEq] at known
            have hp : payload < t.size := hshape.1 payload (by simp [Shape.parts])
            refine .bind (he typed admits (h.check ⟨hp, known.symm⟩)) fun e' t ψ ext re => ?_
            have h := h.later ext
            exact .pure h.wf h.model ⟨rfl, h.marked rfl m, .cons re .nil⟩
          next =>
            refine .bind (he typed admits (h.synth v)) fun e' t ψ ext re => ?_
            have h := h.later ext
            refine .bind (option h.wf h.model (re.reads typed)) fun c t ψ ext hc => ?_
            have h := h.later ext
            have re := ext.records re
            refine .bind (settle_completes h fits hc) fun p t ψ ext hp => ?_
            exact .pure ext.wf ext.model ⟨rfl, hp, .cons (ext.records re) .nil⟩
      | @declared _ layout _ other known loads =>
        rw [if_neg other, resolved_run known, pure_bind]
        obtain ⟨w, found, loads⟩ :=
          Dict.exists_of_forall₂_values rfl (Ty.admitsAll_iff.mp loads) (ctor, v) mem
        rw [resolved_run found, pure_bind]
        refine .bind (load_completes h.wf h.model loads) fun payload t ψ ext hp => ?_
        have h := h.later ext
        refine .bind (he typed admits (h.check hp)) fun e' t ψ ext re => ?_
        have h := h.later ext
        refine .bind (alloc_completes h.wf h.model (by simp [Shape.parts]) fun _ => rfl)
          fun c t ψ ext hc => ?_
        have h := h.later ext
        have re := ext.records re
        refine .bind (settle_completes h fits hc) fun p t ψ ext hp => ?_
        exact .pure ext.wf ext.model ⟨rfl, hp, .cons (ext.records re) .nil⟩

end Ordinance.Typing.CompleteAt
