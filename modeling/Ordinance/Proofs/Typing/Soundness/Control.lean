import Ordinance.Proofs.Typing.Soundness.Lists

namespace Ordinance.Typing

variable {decls : Decls} {env : Env} {m : Mark}

theorem SoundAt.var (v : Var) : SoundAt decls env (.var v m) := by
  intro s φ locals goal hs h
  refine .bind (announce_sound hs h) fun _ t ht le _ => ?_
  have h := h.mono le
  refine .bind (varClass_sound ht h) fun c t ht le hc => ?_
  have h := h.mono le
  refine .bind (settle_sound ht h hc) fun p t ht _ settled => ?_
  refine .pure ht settled fun marked typed announced => ⟨?_, ?_⟩
  · exact .var (marked.1.symm ▸ typed) rfl
  · exact admits_assign rfl settled (marked.2 announced) .nil

theorem SoundAt.lit (l : Literal) : SoundAt decls env (.lit l m) := by
  intro s φ locals goal hs h
  refine .bind (announce_sound hs h) fun _ t ht le _ => ?_
  have h := h.mono le
  refine .bind (alloc_sound ht (by simp [Shape.parts])) fun c t ht le hc => ?_
  have h := h.mono le
  refine .bind (settle_sound ht h hc) fun p t ht _ settled => ?_
  refine .pure ht settled fun marked read announced => ⟨?_, ?_⟩
  · have ty : φ p.cls = .base l.ty := marked.1.trans (read (by simp))
    change HasTy Eq decls env _ (.lit l ⟨p.span, φ p.cls⟩) (φ p.cls)
    rw [ty]
    exact .lit rfl
  · exact admits_assign rfl settled (marked.2 announced) .nil

theorem SoundAt.op (o : Op) : SoundAt decls env (.op o m) := by
  intro s φ locals goal hs h
  refine .bind (announce_sound hs h) fun _ t ht le _ => ?_
  have h := h.mono le
  split
  next shapes known =>
    refine .bind (instantiate_sound ht known) fun c t ht le hc => ?_
    have h := h.mono le
    refine .bind (settle_sound ht h hc) fun p t ht _ settled => ?_
    refine .pure ht settled fun marked typed announced => ⟨?_, ?_⟩
    · exact .op (marked.1.symm ▸ typed) rfl
    · exact admits_assign rfl settled (marked.2 announced) .nil
  next => exact .fail

theorem SoundAt.location (l : Location) : SoundAt decls env (.location l m) := by
  intro s φ locals goal hs h
  refine .bind (announce_sound hs h) fun _ t ht le _ => ?_
  have h := h.mono le
  refine .bind (locationType_sound ht) fun u t ht le known => ?_
  have h := h.mono le
  refine .bind (load_sound ht u) fun c t ht le hc => ?_
  have h := h.mono le
  refine .bind (settle_sound ht h hc) fun p t ht _ settled => ?_
  refine .pure ht settled fun marked admits _ announced => ⟨?_, ?_⟩
  · exact .location known (marked.1.symm ▸ admits) rfl
  · exact admits_assign rfl settled (marked.2 announced) .nil

theorem SoundAt.raise (x : Exn) : SoundAt decls env (.raise x m) := by
  intro s φ locals goal hs h
  refine .bind (announce_sound hs h) fun _ t ht le _ => ?_
  have h := h.mono le
  refine .bind (goalOrNew_sound ht h) fun c t ht le hc => ?_
  refine .bind (conclude_sound ht hc.1 hc.2) fun p t ht _ settled => ?_
  refine .pure ht settled fun marked _ announced => ⟨.raise rfl, ?_⟩
  exact admits_assign rfl settled (marked.2 announced) .nil

theorem SoundAt.force {e : Expr Mark} (ih : SoundAt decls env e) :
    SoundAt decls env (.force e m) := by
  intro s φ locals goal hs h
  refine .bind (announce_sound hs h) fun _ t ht le _ => ?_
  have h := h.mono le
  refine .bind (ih ht h) fun e' t ht _ he => ?_
  refine .bind (conclude_sound ht he.lt fun g hg => he.goal_eq hg) fun p t ht _ settled => ?_
  refine .pure ht settled fun marked typed announced => ⟨?_, ?_⟩
  · exact .force (marked.1.symm ▸ typed.1) rfl
  · exact admits_assign rfl settled (marked.2 announced) (.cons typed.2 .nil)

theorem SoundAt.assert {e : Expr Mark} (ih : SoundAt decls env e) :
    SoundAt decls env (.assert e m) := by
  intro s φ locals goal hs h
  refine .bind (announce_sound hs h) fun _ t ht le _ => ?_
  have h := h.mono le
  refine .bind (alloc_sound ht (by simp [Shape.parts])) fun bool t ht le hb => ?_
  have h := h.mono le
  refine .bind (ih ht (h.check hb)) fun e' t ht le he => ?_
  have h := h.mono le
  refine .bind (alloc_sound ht (by simp [Shape.parts])) fun unit t ht le hu => ?_
  have h := h.mono le
  refine .bind (settle_sound ht h hu) fun p t ht _ settled => ?_
  refine .pure ht settled fun marked unitRead typed boolRead announced => ⟨?_, ?_⟩
  · have ty : φ p.cls = .unit := marked.1.trans (unitRead (by simp))
    change HasTy Eq decls env _ (.assert (assign φ e') ⟨p.span, φ p.cls⟩) (φ p.cls)
    rw [he.goal_eq rfl, boolRead (by simp)] at typed
    rw [ty]
    exact .assert typed.1 rfl
  · exact admits_assign rfl settled (marked.2 announced) (.cons typed.2 .nil)

theorem SoundAt.rescue {body handler : Expr Mark} (x : Exn) (ihb : SoundAt decls env body)
    (ihh : SoundAt decls env handler) : SoundAt decls env (.rescue body x handler m) := by
  intro s φ locals goal hs h
  refine .bind (announce_sound hs h) fun _ t ht le _ => ?_
  have h := h.mono le
  refine .bind (ihb ht h) fun body' t ht le hb => ?_
  have h := h.mono le
  refine .bind (ihh ht (h.check hb.lt)) fun handler' t ht le hh => ?_
  have lt := Nat.lt_of_lt_of_le hb.lt le.size
  refine .bind (conclude_sound ht lt fun g hg => hb.goal_eq hg) fun p t ht _ settled => ?_
  refine .pure ht settled fun marked handled typed announced => ⟨?_, ?_⟩
  · rw [hh.goal_eq rfl] at handled
    exact .rescue (marked.1.symm ▸ typed.1) (marked.1.symm ▸ handled.1) rfl
  · exact admits_assign rfl settled (marked.2 announced) (.cons typed.2 (.cons handled.2 .nil))

theorem SoundAt.ite {cond yes no : Expr Mark} (ihc : SoundAt decls env cond)
    (ihy : SoundAt decls env yes) (ihn : SoundAt decls env no) :
    SoundAt decls env (.ite cond yes no m) := by
  intro s φ locals goal hs h
  refine .bind (announce_sound hs h) fun _ t ht le _ => ?_
  have h := h.mono le
  refine .bind (alloc_sound ht (by simp [Shape.parts])) fun bool t ht le hb => ?_
  have h := h.mono le
  refine .bind (ihc ht (h.check hb)) fun cond' t ht le hc => ?_
  have h := h.mono le
  refine .bind (ihy ht h) fun yes' t ht le hy => ?_
  have h := h.mono le
  refine .bind (ihn ht (h.check hy.lt)) fun no' t ht le hn => ?_
  have lt := Nat.lt_of_lt_of_le hy.lt le.size
  refine .bind (conclude_sound ht lt fun g hg => hy.goal_eq hg) fun p t ht _ settled => ?_
  refine .pure ht settled fun marked tn ty tc boolRead announced => ⟨?_, ?_⟩
  · rw [hc.goal_eq rfl, boolRead (by simp)] at tc
    rw [hn.goal_eq rfl] at tn
    exact .ite tc.1 (marked.1.symm ▸ ty.1) (marked.1.symm ▸ tn.1) rfl
  · exact admits_assign rfl settled (marked.2 announced) (.cons tc.2 (.cons ty.2 (.cons tn.2 .nil)))

theorem SoundAt.default {exceptions : List (Expr Mark)} {just cons : Expr Mark}
    (ihe : ∀ e ∈ exceptions, SoundAt decls env e) (ihj : SoundAt decls env just)
    (ihc : SoundAt decls env cons) : SoundAt decls env (.default exceptions just cons m) := by
  intro s φ locals goal hs h
  refine .bind (announce_sound hs h) fun _ t ht le _ => ?_
  have h := h.mono le
  refine .bind (ihc ht h) fun cons' t ht le hc => ?_
  have h := h.mono le
  refine .bind (elaborateEach_sound ihe ht h.synth (goals_lt_const hc.lt)) fun exceptions' t ht le he => ?_
  have h := h.mono le
  have lt := Nat.lt_of_lt_of_le hc.lt le.size
  refine .bind (alloc_sound ht (by simp [Shape.parts])) fun bool t ht le hb => ?_
  have h := h.mono le
  have lt := Nat.lt_of_lt_of_le lt le.size
  refine .bind (ihj ht (h.check hb)) fun just' t ht le hj => ?_
  have lt := Nat.lt_of_lt_of_le lt le.size
  refine .bind (conclude_sound ht lt fun g hg => hc.goal_eq hg) fun p t ht _ settled => ?_
  refine .pure ht settled fun marked tj boolRead te tc announced => ⟨?_, ?_⟩
  · rw [hj.goal_eq rfl, boolRead (by simp)] at tj
    have same := mark_eq he.1 he.2.2
    rw [assign_default]
    refine .default (List.forall_mem_map.mpr fun e' mem => ?_) tj.1 (marked.1.symm ▸ tc.1) rfl
    have typed := te.1 e' mem
    rw [same e' mem, ← marked.1] at typed
    exact typed
  · refine admits_assign ?_ settled (marked.2 announced) ?_
    · simp [Expr.Head.Admits, Expr.head, assign_default, he.1]
    · simp only [Expr.children, List.map_append, List.map_cons, List.map_nil]
      exact List.rel_append te.2 (.cons tj.2 (.cons tc.2 .nil))

theorem SoundAt.app {f : Expr Mark} {args : List (Expr Mark)} (ihf : SoundAt decls env f)
    (iha : ∀ e ∈ args, SoundAt decls env e) : SoundAt decls env (.app f args m) := by
  intro s φ locals goal hs h
  refine .bind (announce_sound hs h) fun _ t ht le _ => ?_
  have h := h.mono le
  have finished {p : Pending} {f' : Expr Pending} {args' : List (Expr Pending)} {t : Store}
      (length : args'.length = args.length) (settled : Settled goal m p t)
      (ty : φ f'.mark.cls = .arrow (args'.map fun e' => φ e'.mark.cls) (φ p.cls))
      (admits : m.ty.Admits (φ p.cls))
      (tf : HasTy Eq decls env (locals.mapValues φ) (assign φ f') (φ f'.mark.cls) ∧
        f.Admits (assign φ f'))
      (ta : (∀ e' ∈ args', HasTy Eq decls env (locals.mapValues φ) (assign φ e') (φ e'.mark.cls)) ∧
        List.Forall₂ Expr.Admits args (args'.map (assign φ))) :
      HasTy Eq decls env (locals.mapValues φ) (assign φ (.app f' args' p)) (φ p.cls) ∧
        (Expr.app f args m).Admits (assign φ (.app f' args' p)) := by
    refine ⟨?_, admits_assign ?_ settled admits (.cons tf.2 ta.2)⟩
    · rw [assign_app]
      rw [ty] at tf
      exact .app tf.1 (by simp) (hasTy_zip ta.1) rfl
    · simp [Expr.Head.Admits, Expr.head, assign_app, length]
  refine .bind (ihf ht h.synth) fun f' t ht le hf => ?_
  have h := h.mono le
  refine .bind (shapeOf_sound ht) fun shape t ht le parts => ?_
  have h := h.mono le
  have hf' := Nat.lt_of_lt_of_le hf.lt le.size
  split
  next params result =>
    obtain ⟨hr, hp⟩ := List.forall_mem_cons.mp parts
    refine .bind (counted_sound ht) fun _ t ht le count => ?_
    have h := h.mono le
    have hr := Nat.lt_of_lt_of_le hr le.size
    have hp : ∀ q ∈ params, q < t.size := fun q hq => Nat.lt_of_lt_of_le (hp q hq) le.size
    refine .bind (elaborateEach_sound iha ht h.synth (goals_lt hp)) fun args' t ht le ha => ?_
    have h := h.mono le
    have hr := Nat.lt_of_lt_of_le hr le.size
    refine .bind (settle_sound ht h hr) fun p t ht _ settled => ?_
    refine .pure ht settled fun marked ta _ read tf announced => ?_
    refine finished ha.1 settled ?_ (marked.2 announced) tf ta
    rw [read (by simp), marked.1, ← marks_eq (ha.1.trans count.symm) ha.2.2]
    simp [Shape.map, Ty.ofShape]
  next =>
    refine .bind (elaborateEach_sound iha ht h.synth (by simp)) fun args' t ht le ha => ?_
    have h := h.mono le
    have hf' := Nat.lt_of_lt_of_le hf' le.size
    refine .bind (alloc_sound ht (by simp [Shape.parts])) fun result t ht le hr => ?_
    have h := h.mono le
    have hf' := Nat.lt_of_lt_of_le hf' le.size
    have parts : ∀ q ∈ (Shape.arrow (args'.map (·.mark.cls)) result).parts, q < t.size :=
      List.forall_mem_cons.mpr
        ⟨hr, List.forall_mem_map.mpr fun e' he' => Nat.lt_of_lt_of_le (ha.2.1 e' he') le.size⟩
    refine .bind (alloc_sound ht parts) fun c t ht le hc => ?_
    have h := h.mono le
    have hf' := Nat.lt_of_lt_of_le hf' le.size
    have hr := Nat.lt_of_lt_of_le hr le.size
    refine .bind (unify_sound ht hf' hc) fun _ t ht le _ => ?_
    have h := h.mono le
    have hr := Nat.lt_of_lt_of_le hr le.size
    refine .bind (settle_sound ht h hr) fun p t ht _ settled => ?_
    refine .pure ht settled fun marked eq read _ ta _ tf announced => ?_
    refine finished ha.1 settled ?_ (marked.2 announced) tf ta
    rw [eq, read (by simp), marked.1]
    simp [Shape.map, Ty.ofShape]

theorem SoundAt.lam {params : List Var} {tys : List Ty} {body : Expr Mark}
    (ih : SoundAt decls env body) : SoundAt decls env (.lam params tys body m) := by
  intro s φ locals goal hs h
  refine .bind (announce_sound hs h) fun _ t ht le _ => ?_
  replace h := h.mono le
  have finished {p : Pending} {cs : List Class} {body' : Expr Pending} {t : Store}
      (counts : params.length = tys.length ∧ cs.length = tys.length) (settled : Settled goal m p t)
      (ty : φ p.cls = .arrow (cs.map φ) (φ body'.mark.cls)) (admits : m.ty.Admits (φ p.cls))
      (binders : Ty.AdmitsAll tys (cs.map φ))
      (typed : HasTy Eq decls env ((locals.insertMany (params.zip cs)).mapValues φ) (assign φ body')
        (φ body'.mark.cls) ∧ body.Admits (assign φ body')) :
      HasTy Eq decls env (locals.mapValues φ) (assign φ (.lam params tys body' p)) (φ p.cls) ∧
        (Expr.lam params tys body m).Admits (assign φ (.lam params tys body' p)) := by
    have recorded : binderTypes ⟨p.span, φ p.cls⟩ tys = cs.map φ := by
      simp [binderTypes, ty, counts.2]
    refine ⟨?_, admits_assign ?_ settled admits (.cons typed.2 .nil)⟩
    · rw [Dict.mapValues_insertMany] at typed
      rw [assign, Expr.retype, recorded, ty]
      exact .lam (by simp [counts]) (List.forall₂_same.mpr fun _ _ => rfl) typed.1 rfl
    · rw [assign, Expr.retype, recorded]
      exact ⟨rfl, binders⟩
  refine .bind (goalShape_sound ht) fun shape t ht le parts => ?_
  replace h := h.mono le
  split
  next g wanted result =>
    obtain ⟨hr, hw⟩ := List.forall_mem_cons.mp parts
    refine .bind (counted_sound ht) fun _ t ht le count => ?_
    have h := h.mono le
    have hr := Nat.lt_of_lt_of_le hr le.size
    have hw : ∀ q ∈ wanted, q < t.size := fun q hq => Nat.lt_of_lt_of_le (hw q hq) le.size
    refine .bind (binders_sound ht) fun cs t ht le hcs => ?_
    have h := h.mono le
    have hr := Nat.lt_of_lt_of_le hr le.size
    have pairs : ∀ x ∈ wanted.zip cs, x.1 < t.size ∧ x.2 < t.size := fun x hx =>
      have mem := List.of_mem_zip hx
      ⟨Nat.lt_of_lt_of_le (hw _ mem.1) le.size, hcs.2.2 _ mem.2⟩
    refine .bind (unifyEach_sound ht pairs) fun _ t ht le _ => ?_
    have h := h.mono le
    have hr := Nat.lt_of_lt_of_le hr le.size
    have hcs' : ∀ c ∈ cs, c < t.size := fun c hc => Nat.lt_of_lt_of_le (hcs.2.2 c hc) le.size
    refine .bind (ih ht ((h.check hr).bind params hcs')) fun body' t ht le hb => ?_
    have settled : Settled (some g) m ⟨m.span, g⟩ t :=
      ⟨rfl, (h.mono le).goal_lt rfl, fun hg => Option.some.inj hg⟩
    refine .pure ht settled fun typed eqs binders _ read announced => ?_
    refine finished ⟨hcs.1, hcs.2.1⟩ settled ?_ (announced g rfl) binders typed
    have length : wanted.length = cs.length := by omega
    change φ g = _
    rw [read g rfl (by simp), hb.goal_eq rfl, ← map_eq_iff_zip.mpr ⟨length, eqs⟩]
    rfl
  next =>
    refine .bind (binders_sound ht) fun cs t ht le hcs => ?_
    have h := h.mono le
    refine .bind (ih ht (h.synth.bind params hcs.2.2)) fun body' t ht le hb => ?_
    have h := h.mono le
    have parts : ∀ q ∈ (Shape.arrow cs body'.mark.cls).parts, q < t.size :=
      List.forall_mem_cons.mpr
        ⟨hb.lt, fun c hc => Nat.lt_of_lt_of_le (hcs.2.2 c hc) le.size⟩
    refine .bind (alloc_sound ht parts) fun c t ht le hc => ?_
    have h := h.mono le
    refine .bind (settle_sound ht h hc) fun p t ht _ settled => ?_
    refine .pure ht settled fun marked read typed binders _ announced => ?_
    refine finished ⟨hcs.1, hcs.2.1⟩ settled ?_ (marked.2 announced) binders typed
    rw [marked.1, read (by simp)]
    rfl

end Ordinance.Typing
