import Ordinance.Proofs.Typing.Soundness.Lists

namespace Ordinance.Typing

variable {decls : Decls} {env : Env} {m : Mark}

theorem SoundAt.array {es : List (Expr Mark)} (ih : ∀ e ∈ es, SoundAt decls env e) :
    SoundAt decls env (.array es m) := by
  intro s φ locals goal hs h
  refine .bind (announce_sound hs h) fun _ t ht le _ => ?_
  have h := h.mono le
  refine .bind (alloc_sound ht (by simp [Shape.parts])) fun item t ht le hi => ?_
  have h := h.mono le
  have finished {p : Pending} {es' : List (Expr Pending)} {t : Store} (length : es'.length = es.length)
      (same : ∀ e' ∈ es', e'.mark.cls = item) (settled : Settled goal m p t)
      (ty : φ p.cls = .array (φ item)) (admits : m.ty.Admits (φ p.cls))
      (typed : (∀ e' ∈ es', HasTy Eq decls env (locals.mapValues φ) (assign φ e') (φ e'.mark.cls)) ∧
        List.Forall₂ Expr.Admits es (es'.map (assign φ))) :
      HasTy Eq decls env (locals.mapValues φ) (assign φ (.array es' p)) (φ p.cls) ∧
        (Expr.array es m).Admits (assign φ (.array es' p)) := by
    refine ⟨?_, admits_assign ?_ settled admits typed.2⟩
    · rw [assign_array, ty]
      refine .array (List.forall_mem_map.mpr fun e' mem => ?_) rfl
      exact same e' mem ▸ typed.1 e' mem
    · simp [Expr.Head.Admits, Expr.head, assign_array, length]
  cases goal with
  | some g =>
    refine .bind (alloc_sound ht (by simpa [Shape.parts] using hi)) fun c t ht le hc => ?_
    have h := h.mono le
    have hi := Nat.lt_of_lt_of_le hi le.size
    refine .bind (unify_sound ht (h.goal_lt rfl) hc) fun _ t ht le _ => ?_
    have h := h.mono le
    have hi := Nat.lt_of_lt_of_le hi le.size
    refine .bind (elaborateEach_sound ih ht h.synth (goals_lt_const hi)) fun es' t ht le he => ?_
    have settled : Settled (some g) m ⟨m.span, g⟩ t :=
      ⟨rfl, (h.mono le).goal_lt rfl, fun hg => Option.some.inj hg⟩
    refine .pure ht settled fun typed eq read _ announced => ?_
    have ty : φ g = .array (φ item) := eq.trans (read (by simp))
    exact finished he.1 (mark_eq he.1 he.2.2) settled ty (announced g rfl) typed
  | none =>
    refine .bind (elaborateEach_sound ih ht h.synth (goals_lt_const hi)) fun es' t ht le he => ?_
    have hi := Nat.lt_of_lt_of_le hi le.size
    refine .bind (alloc_sound ht (by simpa [Shape.parts] using hi)) fun c t ht le hc => ?_
    refine .bind (conclude_sound ht hc (by simp)) fun p t ht _ settled => ?_
    refine .pure ht settled fun marked read typed _ announced => ?_
    have ty : φ p.cls = .array (φ item) := marked.1.trans (read (by simp))
    exact finished he.1 (mark_eq he.1 he.2.2) settled ty (marked.2 announced) typed

theorem SoundAt.tuple {es : List (Expr Mark)} (ih : ∀ e ∈ es, SoundAt decls env e) :
    SoundAt decls env (.tuple es m) := by
  intro s φ locals goal hs h
  refine .bind (announce_sound hs h) fun _ t ht le _ => ?_
  replace h := h.mono le
  have finished {p : Pending} {es' : List (Expr Pending)} {t : Store} (length : es'.length = es.length)
      (settled : Settled goal m p t) (ty : φ p.cls = .tuple (es'.map fun e' => φ e'.mark.cls))
      (admits : m.ty.Admits (φ p.cls))
      (typed : (∀ e' ∈ es', HasTy Eq decls env (locals.mapValues φ) (assign φ e') (φ e'.mark.cls)) ∧
        List.Forall₂ Expr.Admits es (es'.map (assign φ))) :
      HasTy Eq decls env (locals.mapValues φ) (assign φ (.tuple es' p)) (φ p.cls) ∧
        (Expr.tuple es m).Admits (assign φ (.tuple es' p)) := by
    refine ⟨?_, admits_assign ?_ settled admits typed.2⟩
    · rw [assign_tuple, ty]
      exact .tuple (by simp) (hasTy_zip typed.1) rfl
    · simp [Expr.Head.Admits, Expr.head, assign_tuple, length]
  refine .bind (goalShape_sound ht) fun shape t ht le parts => ?_
  replace h := h.mono le
  split
  next g cs known =>
    obtain ⟨rfl, count⟩ := tupleParts_eq known
    refine .bind (elaborateEach_sound ih ht h.synth (goals_lt parts)) fun es' t ht le he => ?_
    have settled : Settled (some g) m ⟨m.span, g⟩ t :=
      ⟨rfl, (h.mono le).goal_lt rfl, fun hg => Option.some.inj hg⟩
    refine .pure ht settled fun typed read announced => ?_
    refine finished he.1 settled ?_ (announced g rfl) typed
    change φ g = _
    rw [read g rfl (by simp), ← marks_eq (he.1.trans count.symm) he.2.2]
    simp [Shape.map, Ty.ofShape]
  next =>
    refine .bind (elaborateEach_sound ih ht h.synth (by simp)) fun es' t ht le he => ?_
    have h := h.mono le
    have parts : ∀ q ∈ (Shape.tuple (es'.map (·.mark.cls))).parts, q < t.size :=
      List.forall_mem_map.mpr he.2.1
    refine .bind (alloc_sound ht parts) fun c t ht le hc => ?_
    have h := h.mono le
    refine .bind (settle_sound ht h hc) fun p t ht _ settled => ?_
    refine .pure ht settled fun marked read typed _ announced => ?_
    refine finished he.1 settled ?_ (marked.2 announced) typed
    rw [marked.1, read (by simp)]
    simp [Shape.map, Ty.ofShape]

theorem SoundAt.component {e : Expr Mark} {index size : Nat} (ih : SoundAt decls env e) :
    SoundAt decls env (.component e index size m) := by
  intro s φ locals goal hs h
  refine .bind (announce_sound hs h) fun _ t ht le _ => ?_
  have h := h.mono le
  split
  next lt =>
    refine .bind (allocMany_sound ht size) fun cs t ht le hcs => ?_
    have h := h.mono le
    refine .bind (alloc_sound ht hcs.2) fun c t ht le hc => ?_
    have h := h.mono le
    refine .bind (ih ht (h.check hc)) fun e' t' ht' le' he => ?_
    have h := h.mono le'
    have found : cs[index]? = some (cs.getD index c) := by
      have lt : index < cs.length := hcs.1.symm ▸ lt
      simp [lt]
    have mem : cs.getD index c ∈ cs := List.mem_of_getElem? found
    have hd := Nat.lt_of_lt_of_le (hcs.2 _ mem) (le.trans ht le').size
    refine .bind (settle_sound ht' h hd) fun p t ht _ settled => ?_
    refine .pure ht settled fun marked typed read _ announced => ⟨?_, ?_⟩
    · rw [he.goal_eq rfl, read (by simp)] at typed
      refine .component typed.1 (by simp [hcs.1]) ?_ rfl
      change _ = some (φ p.cls)
      rw [List.getElem?_map, found, marked.1, Option.map_some]
    · exact admits_assign rfl settled (marked.2 announced) (.cons typed.2 .nil)
  next => exact .fail

theorem SoundAt.field {e : Expr Mark} {struct name : String} (ih : SoundAt decls env e) :
    SoundAt decls env (.field e struct name m) := by
  intro s φ locals goal hs h
  refine .bind (announce_sound hs h) fun _ t ht le _ => ?_
  have h := h.mono le
  refine .bind (resolved_sound ht) fun layout t ht le known => ?_
  have h := h.mono le
  refine .bind (resolved_sound ht) fun u t ht le found => ?_
  have h := h.mono le
  refine .bind (alloc_sound ht (by simp [Shape.parts])) fun record t ht le hr => ?_
  have h := h.mono le
  refine .bind (ih ht (h.check hr)) fun e' t ht le he => ?_
  have h := h.mono le
  refine .bind (load_sound ht u) fun c t ht le hc => ?_
  have h := h.mono le
  refine .bind (settle_sound ht h hc) fun p t ht _ settled => ?_
  refine .pure ht settled fun marked admits typed read _ _ announced => ⟨?_, ?_⟩
  · rw [he.goal_eq rfl, read (by simp)] at typed
    exact .field known found (marked.1.symm ▸ admits) typed.1 rfl
  · exact admits_assign rfl settled (marked.2 announced) (.cons typed.2 .nil)

theorem SoundAt.record {struct : String} {fields : List (String × Expr Mark)}
    (ascend : (Expr.record struct fields m).namesAscend = true)
    (ih : ∀ f ∈ fields, SoundAt decls env f.2) : SoundAt decls env (.record struct fields m) := by
  intro s φ locals goal hs h
  refine .bind (announce_sound hs h) fun _ t ht le _ => ?_
  have h := h.mono le
  refine .bind (resolved_sound ht) fun layout t ht le known => ?_
  have h := h.mono le
  have class_sound (name : String) (span : Span) (t : Store) (ht : t.Wf) :
      Sound φ t (do
          let u ← resolved (layout.get? name) .field (struct ++ "." ++ name) span
          load u span)
        (fun c u => c < u.size ∧ name ∈ layout.keys)
        (fun c => ∃ u, layout.get? name = some u ∧ u.Admits (φ c)) := by
    refine .bind (resolved_sound ht) fun u t ht _ found => ?_
    refine (load_sound ht u).imp (fun c t _ lt => ⟨lt, ?_⟩) fun c admits _ => ⟨u, found, admits⟩
    exact Dict.get?_isSome_iff.mp (by simp [found])
  refine .bind (elaborateNamed_sound ih ht h.synth (· ∈ layout.keys)
    (fun name v => ∃ u, layout.get? name = some u ∧ u.Admits v)
    fun name span t ht _ => class_sound name span t ht) fun fields' t ht le hf => ?_
  have h := h.mono le
  refine .bind (counted_sound ht) fun _ t ht le count => ?_
  have h := h.mono le
  refine .bind (alloc_sound ht (by simp [Shape.parts])) fun c t ht le hc => ?_
  have h := h.mono le
  refine .bind (settle_sound ht h hc) fun p t ht _ settled => ?_
  refine .pure ht settled fun marked read _ typed _ announced => ?_
  have names : fields'.map (·.1) = layout.keys := by
    refine Dict.eq_keys ?_ (fun name hname => ?_) (by simp [count])
    · rw [hf.1]
      simpa [Expr.namesAscend] using ascend
    · obtain ⟨f', hf', rfl⟩ := List.mem_map.mp hname
      exact (hf.2 f' hf').2
  have ty : φ p.cls = .struct struct := marked.1.trans (read (by simp))
  refine ⟨?_, admits_assign ?_ settled (marked.2 announced) ?_⟩
  · change HasTy Eq decls env _ (assign φ (.record struct fields' p)) (φ p.cls)
    rw [assign_record, ty]
    have listed (g : Expr Pending → Ty) :
        ((fields'.map fun f' => (f'.1, g f'.2)).map (·.1)) = layout.keys := by
      simpa [Function.comp_def] using names
    have admits := Dict.forall₂_values (listed fun e' => φ e'.mark.cls)
      (List.forall_mem_map.mpr fun f' hf' => (typed.1 f' hf').2)
    refine .record known (by simpa [Function.comp_def] using names) (Ty.admitsAll_iff.mpr admits) ?_ rfl
    rw [List.map_map, List.map_map, List.zip_map']
    exact List.forall_mem_map.mpr fun f' hf' => (typed.1 f' hf').1
  · simp [Expr.Head.Admits, Expr.head, assign_record, Function.comp_def, hf.1]
  · exact typed.2

theorem SoundAt.switch {e : Expr Mark} {enum : String} {cases : List (String × Expr Mark)}
    (ascend : (Expr.switch e enum cases m).namesAscend = true) (ihe : SoundAt decls env e)
    (ihc : ∀ c ∈ cases, SoundAt decls env c.2) : SoundAt decls env (.switch e enum cases m) := by
  intro s φ locals goal hs h
  refine .bind (announce_sound hs h) fun _ t ht le _ => ?_
  have h := h.mono le
  refine .bind (goalOrNew_sound ht h) fun result t ht le hr => ?_
  have h := h.mono le
  refine .bind (enumClasses_sound ht) fun r t ht le hcls => ?_
  have h := h.mono le
  have hr' := Nat.lt_of_lt_of_le hr.1 le.size
  refine .bind (ihe ht (h.check hcls.1)) fun e' t ht le he => ?_
  have h := h.mono le
  have hr' := Nat.lt_of_lt_of_le hr' le.size
  have payload_lt {name : String} {c : Class} (found : r.2.get? name = some c) : c < t.size := by
    have mem : c ∈ r.2.values := List.mem_map.mpr ⟨(name, c), Dict.mem_entries_iff.mpr found, rfl⟩
    exact Nat.lt_of_lt_of_le (hcls.2 c mem) le.size
  have class_sound (name : String) (span : Span) (u : Store) (hu : u.Wf) (le : t.Le u) :
      Sound φ u (do
          let payload ← resolved (r.2.get? name) .constructor (enum ++ "." ++ name) span
          alloc (.arrow [payload] result) span)
        (fun c u => c < u.size ∧ name ∈ r.2.keys)
        (fun c => ∃ d, r.2.get? name = some d ∧ φ c = .arrow [φ d] (φ result)) := by
    refine .bind (resolved_sound hu) fun d u hu le' found => ?_
    have le := le.trans ‹_› le'
    have parts : ∀ q ∈ (Shape.arrow [d] result).parts, q < u.size := by
      have hd := Nat.lt_of_lt_of_le (payload_lt found) le.size
      have hr := Nat.lt_of_lt_of_le hr' le.size
      simpa [Shape.parts] using ⟨hr, hd⟩
    refine (alloc_sound hu parts).imp (fun c t _ lt => ⟨lt, ?_⟩) fun c read _ => ?_
    · exact Dict.get?_isSome_iff.mp (by simp [found])
    · exact ⟨d, found, read (by simp)⟩
  refine .bind (elaborateNamed_sound ihc ht h.synth (· ∈ r.2.keys)
    (fun name v => ∃ d, r.2.get? name = some d ∧ v = .arrow [φ d] (φ result)) class_sound)
    fun cases' t ht le hc => ?_
  have h := h.mono le
  have hr' := Nat.lt_of_lt_of_le hr' le.size
  refine .bind (counted_sound ht) fun _ t ht le count => ?_
  have hr' := Nat.lt_of_lt_of_le hr' le.size
  refine .bind (conclude_sound ht hr' hr.2) fun p t ht _ settled => ?_
  refine .pure ht settled fun marked _ typed te enumerates _ announced => ?_
  have names : cases'.map (·.1) = r.2.keys := by
    refine Dict.eq_keys ?_ (fun name hname => ?_) (by simp [count])
    · rw [hc.1]
      simpa [Expr.namesAscend] using ascend
    · obtain ⟨c', hc', rfl⟩ := List.mem_map.mp hname
      exact (hc.2 c' hc').2
  refine ⟨?_, admits_assign ?_ settled (marked.2 announced) (.cons te.2 typed.2)⟩
  · rw [assign_switch]
    rw [he.goal_eq rfl] at te
    have listed : ((cases'.map fun c => (c.1, assign φ c.2)).map (·.1)) = r.2.keys := by
      simpa [Function.comp_def] using names
    have branches : List.Forall₂ (fun d c => HasTy Eq decls env (locals.mapValues φ) c
        (.arrow [φ d] (φ p.cls))) r.2.values ((cases'.map fun c => (c.1, assign φ c.2)).map (·.2)) := by
      refine Dict.forall₂_values listed (List.forall_mem_map.mpr fun c' hc' => ?_)
      obtain ⟨hty, d, found, ty⟩ := typed.1 c' hc'
      exact ⟨d, found, marked.1 ▸ ty ▸ hty⟩
    have typed : List.Forall₂ (fun c u => HasTy Eq decls env (locals.mapValues φ) c
        (.arrow [u] (φ p.cls))) ((cases'.map fun c => (c.1, assign φ c.2)).map (·.2))
        (r.2.values.map φ) := List.forall₂_map_right_iff.mpr branches.flip
    refine .switch (by rw [listed]; exact enumerates) te.1 (fun x hx => ?_) rfl
    exact List.forall₂_zip typed hx
  · simp [Expr.Head.Admits, Expr.head, assign_switch, Function.comp_def, hc.1]

/-- One payload of an enum may be filled in and the others left as they are declared. -/
theorem exists_payloads {layout : Layout} {name : String} {u v : Ty}
    (found : layout.get? name = some u) (admits : u.Admits v) :
    ∃ payloads, Ty.AdmitsAll layout.values payloads ∧ (name, v) ∈ layout.keys.zip payloads := by
  refine ⟨layout.entries.map fun x => if x.1 = name then v else x.2, ?_, ?_⟩
  · rw [Ty.admitsAll_iff, Dict.values, List.forall₂_map_left_iff, List.forall₂_map_right_iff]
    refine List.forall₂_same.mpr fun x hx => ?_
    split
    next eq =>
      have here : layout.get? x.1 = some x.2 := Dict.mem_entries_iff.mp hx
      rw [eq, found] at here
      exact Option.some.inj here ▸ admits
    next => exact .refl _
  · rw [Dict.keys, List.zip_map']
    exact List.mem_map.mpr ⟨(name, u), Dict.mem_entries_iff.mpr found, by simp⟩

theorem SoundAt.inject {e : Expr Mark} {enum ctor : String} (ih : SoundAt decls env e) :
    SoundAt decls env (.inject enum ctor e m) := by
  intro s φ locals goal hs h
  refine .bind (announce_sound hs h) fun _ t ht le _ => ?_
  replace h := h.mono le
  have finished {p : Pending} {e' : Expr Pending} {t : Store} {names : List String}
      {payloads : List Ty} (enumerates : Enumerates decls enum (φ p.cls) names payloads)
      (mem : (ctor, φ e'.mark.cls) ∈ names.zip payloads) (settled : Settled goal m p t)
      (admits : m.ty.Admits (φ p.cls))
      (typed : HasTy Eq decls env (locals.mapValues φ) (assign φ e') (φ e'.mark.cls) ∧
        e.Admits (assign φ e')) :
      HasTy Eq decls env (locals.mapValues φ) (assign φ (.inject enum ctor e' p)) (φ p.cls) ∧
        (Expr.inject enum ctor e m).Admits (assign φ (.inject enum ctor e' p)) :=
    ⟨.inject enumerates mem typed.1 rfl, admits_assign rfl settled admits (.cons typed.2 .nil)⟩
  split
  next optional =>
    subst optional
    split
    next absent =>
      subst absent
      refine .bind (alloc_sound ht (by simp [Shape.parts])) fun unit t ht le hu => ?_
      have h := h.mono le
      refine .bind (ih ht (h.check hu)) fun e' t ht le he => ?_
      have h := h.mono le
      refine .bind (alloc_sound ht (by simp [Shape.parts])) fun payload t ht le hp => ?_
      have h := h.mono le
      refine .bind (alloc_sound ht (by simpa [Shape.parts] using hp)) fun c t ht le hc => ?_
      have h := h.mono le
      refine .bind (settle_sound ht h hc) fun p t ht _ settled => ?_
      refine .pure ht settled fun marked read _ typed unitRead announced => ?_
      have ty : φ p.cls = .option (φ payload) := marked.1.trans (read (by simp))
      have unitTy : φ e'.mark.cls = .unit := by
        rw [he.goal_eq rfl, unitRead (by simp)]
        rfl
      refine finished (ty ▸ Enumerates.optional _) ?_ settled (marked.2 announced) typed
      simp [unitTy]
    next =>
      split
      next present =>
        subst present
        refine .bind (goalShape_sound ht) fun shape t ht le parts => ?_
        replace h := h.mono le
        split
        next g payload =>
          have hp : payload < t.size := parts payload (by simp [Shape.parts])
          refine .bind (ih ht (h.check hp)) fun e' t ht le he => ?_
          have settled : Settled (some g) m ⟨m.span, g⟩ t :=
            ⟨rfl, (h.mono le).goal_lt rfl, fun hg => Option.some.inj hg⟩
          refine .pure ht settled fun typed read announced => ?_
          have ty : φ g = .option (φ e'.mark.cls) := by
            rw [read g rfl (by simp), he.goal_eq rfl]
            rfl
          exact finished (ty ▸ Enumerates.optional _) (by simp) settled (announced g rfl) typed
        next =>
          refine .bind (ih ht h.synth) fun e' t ht le he => ?_
          have h := h.mono le
          refine .bind (alloc_sound ht (by simpa [Shape.parts] using he.lt)) fun c t ht le hc => ?_
          have h := h.mono le
          refine .bind (settle_sound ht h hc) fun p t ht _ settled => ?_
          refine .pure ht settled fun marked read typed _ announced => ?_
          have ty : φ p.cls = .option (φ e'.mark.cls) := marked.1.trans (read (by simp))
          exact finished (ty ▸ Enumerates.optional _) (by simp) settled (marked.2 announced) typed
      next => exact .fail
  next declared =>
    refine .bind (resolved_sound ht) fun layout t ht le known => ?_
    have h := h.mono le
    refine .bind (resolved_sound ht) fun u t ht le found => ?_
    have h := h.mono le
    refine .bind (load_sound ht u) fun payload t ht le hp => ?_
    have h := h.mono le
    refine .bind (ih ht (h.check hp)) fun e' t ht le he => ?_
    have h := h.mono le
    refine .bind (alloc_sound ht (by simp [Shape.parts])) fun c t ht le hc => ?_
    have h := h.mono le
    refine .bind (settle_sound ht h hc) fun p t ht _ settled => ?_
    refine .pure ht settled fun marked read typed admits _ _ announced => ?_
    have ty : φ p.cls = .enum enum := marked.1.trans (read (by simp))
    rw [← he.goal_eq rfl] at admits
    obtain ⟨payloads, all, mem⟩ := exists_payloads found admits
    exact finished (ty ▸ .declared declared known all) mem settled (marked.2 announced) typed

end Ordinance.Typing
