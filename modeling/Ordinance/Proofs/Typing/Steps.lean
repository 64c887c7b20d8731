import Ordinance.Proofs.Typing.Run

namespace Ordinance.Typing

variable {s t : Store} {φ ψ : Class → Ty} {c : Class} {span : Span} {goal : Option Class} {m : Mark}
  {locals : Locals} {env : Env} {decls : Decls} {Γ : Dict Var Ty} {u : Ty}

/-- The classes around an expression are classes of the store. -/
structure Scoped (s : Store) (locals : Locals) (goal : Option Class) : Prop where
  local_lt {v : Var} {c : Class} : locals.get? v = some c → c < s.size
  goal_lt {g : Class} : g ∈ goal → g < s.size

namespace Scoped

theorem mono (h : Scoped s locals goal) (le : s.Le t) : Scoped t locals goal where
  local_lt hv := Nat.lt_of_lt_of_le (h.local_lt hv) le.size
  goal_lt hg := Nat.lt_of_lt_of_le (h.goal_lt hg) le.size

theorem check (h : Scoped s locals goal) (hc : c < s.size) : Scoped s locals (some c) where
  local_lt := h.local_lt
  goal_lt hg := by
    cases hg
    exact hc

theorem synth (h : Scoped s locals goal) : Scoped s locals none where
  local_lt := h.local_lt
  goal_lt := nofun

theorem bind (h : Scoped s locals goal) (vs : List Var) {cs : List Class}
    (hcs : ∀ c ∈ cs, c < s.size) : Scoped s (locals.insertMany (vs.zip cs)) goal where
  local_lt {v c} hv := by
    induction vs generalizing locals cs with
    | nil => exact h.local_lt hv
    | cons w vs ih =>
      cases cs with
      | nil => exact h.local_lt hv
      | cons d cs =>
        obtain ⟨hd, hcs⟩ := List.forall_mem_cons.mp hcs
        refine ih ⟨fun {v c} hv => ?_, h.goal_lt⟩ hcs hv
        rw [Dict.get?_insert] at hv
        split at hv
        · cases hv
          exact hd
        · exact h.local_lt hv
  goal_lt := h.goal_lt

end Scoped

/-- A reading of the store takes the variables around an expression to `Γ` and its goal to `u`. -/
structure Reads (φ : Class → Ty) (s : Store) (locals : Locals) (goal : Option Class)
    (Γ : Dict Var Ty) (u : Ty) : Prop where
  wf : s.Wf
  model : s.Model φ
  bounded : Scoped s locals goal
  locals_eq : locals.mapValues φ = Γ
  goal_eq {g : Class} : g ∈ goal → φ g = u

namespace Reads

theorem later (h : Reads φ s locals goal Γ u) (ext : Extends s φ t ψ) :
    Reads ψ t locals goal Γ u where
  wf := ext.wf
  model := ext.model
  bounded := h.bounded.mono ext.le
  locals_eq := by
    rw [← h.locals_eq]
    exact Dict.mapValues_congr fun v c hv => ext.keep (h.bounded.local_lt hv)
  goal_eq hg := (ext.keep (h.bounded.goal_lt hg)).trans (h.goal_eq hg)

theorem check (h : Reads φ s locals goal Γ u) {v : Ty} (hc : c < s.size ∧ φ c = v) :
    Reads φ s locals (some c) Γ v where
  wf := h.wf
  model := h.model
  bounded := h.bounded.check hc.1
  locals_eq := h.locals_eq
  goal_eq hg := by
    cases hg
    exact hc.2

theorem synth (h : Reads φ s locals goal Γ u) (v : Ty) : Reads φ s locals none Γ v where
  wf := h.wf
  model := h.model
  bounded := h.bounded.synth
  locals_eq := h.locals_eq
  goal_eq := nofun

theorem bind (h : Reads φ s locals goal Γ u) (vs : List Var) {cs : List Class}
    (hcs : ∀ c ∈ cs, c < s.size) :
    Reads φ s (locals.insertMany (vs.zip cs)) goal (Γ.insertMany (vs.zip (cs.map φ))) u where
  wf := h.wf
  model := h.model
  bounded := h.bounded.bind vs hcs
  locals_eq := by rw [Dict.mapValues_insertMany, h.locals_eq]
  goal_eq := h.goal_eq

end Reads

section Marks

theorem announce_some (g : Class) : announce (some g) m =
    if m.ty.isAny then pure () else load m.ty m.span >>= fun c => unify g c m.span := by
  simp only [announce, writtenClass]
  split
  · rfl
  · rw [map_eq_pure_bind, bind_assoc]
    rfl

theorem conclude_none (c : Class) : conclude none c m =
    if m.ty.isAny then pure ⟨m.span, c⟩
    else load m.ty m.span >>= fun a => unify a c m.span >>= fun _ => pure ⟨m.span, c⟩ := by
  simp only [conclude, writtenClass]
  split
  · rfl
  · rw [map_eq_pure_bind, bind_assoc]
    rfl

theorem settle_some (g : Class) : settle (some g) c m =
    unify g c m.span >>= fun _ => pure ⟨m.span, g⟩ := rfl

theorem settle_none : settle none c m = conclude none c m := rfl

theorem announce_sound (hs : s.Wf) (h : Scoped s locals goal) :
    Sound φ s (announce goal m) (fun _ _ => True) (fun _ => ∀ g ∈ goal, m.ty.Admits (φ g)) := by
  cases goal with
  | none => exact .pure hs trivial nofun
  | some g =>
    rw [announce_some]
    split
    next any => exact .pure hs trivial fun _ _ => Ty.admits_of_isAny any _
    next =>
      refine .bind (load_sound hs _) fun c t ht le hc => ?_
      refine (unify_sound ht ((h.mono le).goal_lt rfl) hc).imp (fun _ _ _ h => h) fun _ eq admits g hg => ?_
      cases hg
      exact eq ▸ admits

theorem announce_completes (h : Reads φ s locals goal Γ u) (fits : m.ty.Admits u) :
    Completes φ s (announce goal m) fun _ _ _ => True := by
  cases goal with
  | none => exact .pure h.wf h.model trivial
  | some g =>
    rw [announce_some]
    split
    · exact .pure h.wf h.model trivial
    · refine .bind (load_completes h.wf h.model fits) fun c t ψ ext hc => ?_
      have h := h.later ext
      exact unify_completes h.wf h.model (h.bounded.goal_lt rfl) hc.1 ((h.goal_eq rfl).trans hc.2.symm)

/-- A mark is settled if its class is a class of the store, and that of the goal if there is one. -/
structure Settled (goal : Option Class) (m : Mark) (p : Pending) (t : Store) : Prop where
  span_eq : p.span = m.span
  lt : p.cls < t.size
  goal_eq {g : Class} : g ∈ goal → p.cls = g

theorem conclude_sound (hs : s.Wf) (hc : c < s.size) (same : ∀ g ∈ goal, c = g) :
    Sound φ s (conclude goal c m) (Settled goal m)
      (fun p => φ p.cls = φ c ∧
        ((∀ g ∈ goal, m.ty.Admits (φ g)) → m.ty.Admits (φ p.cls))) := by
  cases goal with
  | some g =>
    obtain rfl := same g rfl
    refine .pure hs ⟨rfl, hc, fun hg => ?_⟩ ⟨rfl, fun h => h c rfl⟩
    cases hg
    rfl
  | none =>
    rw [conclude_none]
    split
    next any => exact .pure hs ⟨rfl, hc, nofun⟩ ⟨rfl, fun _ => Ty.admits_of_isAny any _⟩
    next =>
      refine .bind (load_sound hs _) fun a t ht le ha => ?_
      have hc := Nat.lt_of_lt_of_le hc le.size
      refine .bind (unify_sound ht ha hc) fun _ t ht le _ => ?_
      refine .pure ht ⟨rfl, Nat.lt_of_lt_of_le hc le.size, nofun⟩ fun eq admits => ⟨rfl, fun _ => ?_⟩
      exact eq ▸ admits

theorem settle_sound (hs : s.Wf) (h : Scoped s locals goal) (hc : c < s.size) :
    Sound φ s (settle goal c m) (Settled goal m)
      (fun p => φ p.cls = φ c ∧
        ((∀ g ∈ goal, m.ty.Admits (φ g)) → m.ty.Admits (φ p.cls))) := by
  cases goal with
  | some g =>
    rw [settle_some]
    refine .bind (unify_sound hs (h.goal_lt rfl) hc) fun _ t ht le _ => ?_
    refine .pure ht ⟨rfl, (h.mono le).goal_lt rfl, fun hg => ?_⟩ fun eq => ⟨eq, fun h => h g rfl⟩
    cases hg
    rfl
  | none =>
    rw [settle_none]
    exact conclude_sound hs hc nofun

/-- The mark that `m` has led to stands for a class that reads as `u`. -/
structure Marked (m : Mark) (u : Ty) (p : Pending) (t : Store) (ψ : Class → Ty) : Prop where
  span_eq : p.span = m.span
  reads : p.cls < t.size ∧ ψ p.cls = u

theorem Reads.marked (h : Reads φ s locals goal Γ u) {g : Class} (hg : g ∈ goal) (m : Mark) :
    Marked m u ⟨m.span, g⟩ s φ :=
  ⟨rfl, h.bounded.goal_lt hg, h.goal_eq hg⟩

theorem conclude_completes (h : Reads φ s locals goal Γ u) (fits : m.ty.Admits u)
    (hc : c < s.size ∧ φ c = u) : Completes φ s (conclude goal c m) (Marked m u) := by
  cases goal with
  | some g => exact .pure h.wf h.model (h.marked rfl m)
  | none =>
    rw [conclude_none]
    split
    · exact .pure h.wf h.model ⟨rfl, hc⟩
    · refine .bind (load_completes h.wf h.model fits) fun a t ψ ext ha => ?_
      have hc := ext.carry hc
      refine .bind (unify_completes ext.wf ext.model ha.1 hc.1 (ha.2.trans hc.2.symm))
        fun _ t ψ ext _ => ?_
      exact .pure ext.wf ext.model ⟨rfl, ext.carry hc⟩

theorem settle_completes (h : Reads φ s locals goal Γ u) (fits : m.ty.Admits u)
    (hc : c < s.size ∧ φ c = u) : Completes φ s (settle goal c m) (Marked m u) := by
  cases goal with
  | some g =>
    rw [settle_some]
    have eq : φ g = φ c := (h.goal_eq rfl).trans hc.2.symm
    refine .bind (unify_completes h.wf h.model (h.bounded.goal_lt rfl) hc.1 eq)
      fun _ t ψ ext _ => ?_
    have h := h.later ext
    exact .pure h.wf h.model (h.marked rfl m)
  | none => exact conclude_completes h fits hc

theorem goalOrNew_sound (hs : s.Wf) (h : Scoped s locals goal) :
    Sound φ s (goalOrNew goal span) (fun c t => c < t.size ∧ ∀ g ∈ goal, c = g)
      (fun _ => True) := by
  cases goal with
  | some g =>
    refine .pure hs ⟨h.goal_lt rfl, fun _ hg => ?_⟩ trivial
    cases hg
    rfl
  | none =>
    exact (alloc_sound hs (by simp [Shape.parts])).imp (fun _ _ _ lt => ⟨lt, nofun⟩) fun _ _ => trivial

theorem goalOrNew_completes (h : Reads φ s locals goal Γ u) :
    Completes φ s (goalOrNew goal span) fun c t ψ => c < t.size ∧ ψ c = u := by
  cases goal with
  | some g => exact .pure h.wf h.model ⟨h.bounded.goal_lt rfl, h.goal_eq rfl⟩
  | none => exact alloc_completes h.wf h.model (by simp [Shape.parts]) (by simp)

theorem goalShape_sound (hs : s.Wf) :
    Sound φ s (goalShape goal) (fun p t => ∀ q ∈ p.parts, q < t.size)
      (fun p => ∀ g ∈ goal, p ≠ .any → φ g = .ofShape (p.map φ)) := by
  cases goal with
  | some g =>
    refine (shapeOf_sound hs).imp (fun _ _ _ h => h) fun p read g hg => ?_
    cases hg
    exact read
  | none => exact .pure hs (by simp [Shape.parts]) nofun

theorem goalShape_completes (h : Reads φ s locals goal Γ u) :
    Completes φ s (goalShape goal) fun p t ψ =>
      (∀ q ∈ p.parts, q < t.size) ∧ (goal.isSome → p ≠ .any → u = .ofShape (p.map ψ)) := by
  cases goal with
  | some g =>
    refine (shapeOf_completes h.wf h.model).imp fun p t ψ ext hp => ⟨hp.1, fun _ known => ?_⟩
    rw [← hp.2 known, (h.later ext).goal_eq rfl]
  | none => exact .pure h.wf h.model ⟨by simp [Shape.parts], nofun⟩

theorem tupleParts_eq {n : Nat} {p : Shape Class} {cs : List Class}
    (h : tupleParts n p = some cs) : p = .tuple cs ∧ cs.length = n := by
  cases p with
  | tuple ts =>
    simp only [tupleParts, Option.ite_none_right_eq_some] at h
    obtain ⟨length, h⟩ := h
    cases h
    exact ⟨rfl, length⟩
  | _ => cases h

end Marks

section Binders

theorem unifyEach_cons (a b : Class) (rest : List (Class × Class)) :
    unifyEach span ((a, b) :: rest) = unify a b span >>= fun _ => unifyEach span rest := rfl

theorem unifyEach_sound {pairs : List (Class × Class)} (hs : s.Wf)
    (lt : ∀ x ∈ pairs, x.1 < s.size ∧ x.2 < s.size) :
    Sound φ s (unifyEach span pairs) (fun _ _ => True) (fun _ => ∀ x ∈ pairs, φ x.1 = φ x.2) := by
  induction pairs generalizing s with
  | nil => exact .pure hs trivial (by simp)
  | cons x pairs ih =>
    obtain ⟨hx, rest⟩ := List.forall_mem_cons.mp lt
    rw [unifyEach_cons]
    refine .bind (unify_sound hs hx.1 hx.2) fun _ t ht le _ => ?_
    refine (ih ht fun y hy => ?_).imp (fun _ _ _ h => h) fun _ eqs eq => ?_
    · exact ⟨Nat.lt_of_lt_of_le (rest y hy).1 le.size, Nat.lt_of_lt_of_le (rest y hy).2 le.size⟩
    · exact List.forall_mem_cons.mpr ⟨eq, eqs⟩

theorem unifyEach_completes {pairs : List (Class × Class)} (hs : s.Wf) (model : s.Model φ)
    (lt : ∀ x ∈ pairs, x.1 < s.size ∧ x.2 < s.size) (eqs : ∀ x ∈ pairs, φ x.1 = φ x.2) :
    Completes φ s (unifyEach span pairs) fun _ _ _ => True := by
  induction pairs generalizing s φ with
  | nil => exact .pure hs model trivial
  | cons x pairs ih =>
    obtain ⟨hx, rest⟩ := List.forall_mem_cons.mp lt
    obtain ⟨eq, eqs⟩ := List.forall_mem_cons.mp eqs
    rw [unifyEach_cons]
    refine .bind (unify_completes hs model hx.1 hx.2 eq) fun _ t ψ ext _ => ?_
    refine ih ext.wf ext.model (fun y hy => ?_) fun y hy => ?_
    · exact ⟨Nat.lt_of_lt_of_le (rest y hy).1 ext.le.size,
        Nat.lt_of_lt_of_le (rest y hy).2 ext.le.size⟩
    · rw [ext.keep (rest y hy).1, ext.keep (rest y hy).2, eqs y hy]

theorem binders_sound {params : List Var} {tys : List Ty} (hs : s.Wf) :
    Sound φ s (binders params tys span)
      (fun cs t => params.length = tys.length ∧ cs.length = tys.length ∧ ∀ c ∈ cs, c < t.size)
      (fun cs => Ty.AdmitsAll tys (cs.map φ)) := by
  refine .bind (counted_sound hs) fun _ t ht _ count => ?_
  exact (loadAll_sound ht tys).imp (fun cs _ _ h => ⟨count, h⟩) fun _ h _ => h

theorem binders_completes {params : List Var} {tys ts : List Ty} (hs : s.Wf) (model : s.Model φ)
    (count : params.length = tys.length) (fits : Ty.AdmitsAll tys ts) :
    Completes φ s (binders params tys span) fun cs t ψ => (∀ c ∈ cs, c < t.size) ∧ cs.map ψ = ts := by
  rw [binders, counted_run count]
  exact loadAll_completes hs model fits

theorem allocMany_succ (n : Nat) : allocMany span (n + 1) =
    alloc .any span >>= fun c => allocMany span n >>= fun cs => pure (c :: cs) := rfl

theorem allocMany_sound (hs : s.Wf) (n : Nat) :
    Sound φ s (allocMany span n) (fun cs t => cs.length = n ∧ ∀ c ∈ cs, c < t.size)
      (fun _ => True) := by
  induction n generalizing s with
  | zero => exact .pure hs ⟨rfl, by simp⟩ trivial
  | succ n ih =>
    rw [allocMany_succ]
    refine .bind (alloc_sound hs (by simp [Shape.parts])) fun c t ht _ hc => ?_
    refine .bind (ih ht) fun cs t ht le hcs => ?_
    refine .pure ht ⟨by simp [hcs.1], List.forall_mem_cons.mpr ⟨?_, hcs.2⟩⟩ fun _ _ => trivial
    exact Nat.lt_of_lt_of_le hc le.size

theorem allocMany_completes (hs : s.Wf) (model : s.Model φ) (ts : List Ty) :
    Completes φ s (allocMany span ts.length) fun cs t ψ =>
      (∀ c ∈ cs, c < t.size) ∧ cs.map ψ = ts := by
  induction ts generalizing s φ with
  | nil => exact .pure hs model ⟨by simp, rfl⟩
  | cons u ts ih =>
    rw [List.length_cons, allocMany_succ]
    have new : Completes φ s (alloc .any span) fun c t ψ => c < t.size ∧ ψ c = u :=
      alloc_completes hs model (by simp [Shape.parts]) (by simp)
    refine .bind new fun c t ψ ext hc => ?_
    refine .bind (ih ext.wf ext.model) fun cs t ψ ext hcs => ?_
    refine .pure ext.wf ext.model ⟨List.forall_mem_cons.mpr ⟨?_, hcs.1⟩, ?_⟩
    · exact Nat.lt_of_lt_of_le hc.1 ext.le.size
    · rw [List.map_cons, ext.keep hc.1, hc.2, hcs.2]

end Binders

section Names

theorem varClass_sound {v : Var} (hs : s.Wf) (h : Scoped s locals goal) :
    Sound φ s (varClass env locals v span) (fun c t => c < t.size)
      (fun c => VarTy env (locals.mapValues φ) v (φ c)) := by
  unfold varClass
  split
  next c hv => exact .pure hs (h.local_lt hv) (by simp [VarTy, hv])
  next hv =>
    refine .bind (resolved_sound hs) fun u t ht _ hu => ?_
    refine (load_sound ht u).imp (fun _ _ _ lt => lt) fun c admits _ => ?_
    simp only [VarTy, Dict.get?_mapValues, hv, Option.map_none]
    exact ⟨u, hu, admits⟩

theorem varClass_completes {v : Var} {goal : Option Class} {w : Ty}
    (h : Reads φ s locals goal Γ w) (hv : VarTy env Γ v u) :
    Completes φ s (varClass env locals v span) fun c t ψ => c < t.size ∧ ψ c = u := by
  unfold varClass
  rw [← h.locals_eq, VarTy, Dict.get?_mapValues] at hv
  split
  next c hc =>
    rw [hc] at hv
    exact .pure h.wf h.model ⟨h.bounded.local_lt hc, hv.symm⟩
  next hc =>
    rw [hc] at hv
    obtain ⟨w, known, admits⟩ := hv
    rw [resolved_run known]
    exact load_completes h.wf h.model admits

theorem locationType_sound {l : Location} (hs : s.Wf) :
    Sound φ s (locationType env span l) (fun u _ => locationTy? env l = some u)
      (fun _ => True) := by
  cases l <;> exact resolved_sound hs

theorem locationType_run {l : Location} (h : locationTy? env l = some u) :
    locationType env span l = pure u := by
  cases l <;> exact resolved_run h

end Names

section Enums

theorem loadCases_cons (name : String) (u : Ty) (rest : List (String × Ty)) :
    loadCases span ((name, u) :: rest) =
      load u span >>= fun c => loadCases span rest >>= fun cs => pure ((name, c) :: cs) := rfl

theorem loadCases_sound {cases : List (String × Ty)} (hs : s.Wf) :
    Sound φ s (loadCases span cases)
      (fun cs t => cs.map (·.1) = cases.map (·.1) ∧ ∀ x ∈ cs, x.2 < t.size)
      (fun cs => Ty.AdmitsAll (cases.map (·.2)) ((cs.map (·.2)).map φ)) := by
  induction cases generalizing s with
  | nil => exact .pure hs ⟨rfl, by simp⟩ trivial
  | cons x cases ih =>
    rw [loadCases_cons]
    refine .bind (load_sound hs _) fun c t ht _ hc => ?_
    refine .bind (ih ht) fun cs t ht le hcs => ?_
    refine .pure ht ⟨by simp [hcs.1], List.forall_mem_cons.mpr ⟨?_, hcs.2⟩⟩ fun many one => ?_
    · exact Nat.lt_of_lt_of_le hc le.size
    · exact ⟨one, many⟩

theorem loadCases_completes {cases : List (String × Ty)} {ts : List Ty} (hs : s.Wf)
    (model : s.Model φ) (h : Ty.AdmitsAll (cases.map (·.2)) ts) :
    Completes φ s (loadCases span cases) fun cs t ψ =>
      cs.map (·.1) = cases.map (·.1) ∧ (∀ x ∈ cs, x.2 < t.size) ∧ (cs.map (·.2)).map ψ = ts := by
  induction cases generalizing s φ ts with
  | nil =>
    cases ts with
    | nil => exact .pure hs model ⟨rfl, by simp, rfl⟩
    | cons => cases h
  | cons x cases ih =>
    cases ts with
    | nil => cases h
    | cons u ts =>
      rw [loadCases_cons]
      refine .bind (load_completes hs model h.1) fun c t ψ ext hc => ?_
      refine .bind (ih ext.wf ext.model h.2) fun cs t ψ ext hcs => ?_
      refine .pure ext.wf ext.model ⟨by simp [hcs.1], List.forall_mem_cons.mpr ⟨?_, hcs.2.1⟩, ?_⟩
      · exact Nat.lt_of_lt_of_le hc.1 ext.le.size
      · rw [List.map_cons, List.map_cons, ext.keep hc.1, hc.2, hcs.2.2]

/-- Classes listed under the names of a layout make a map with the keys of the layout. -/
private theorem payloads_eq {layout : Layout} {cs : List (String × Class)}
    (names : cs.map (·.1) = layout.entries.map (·.1)) :
    (Dict.ofList cs).keys = layout.keys ∧ (Dict.ofList cs).values = cs.map (·.2) := by
  have ascending : cs.Pairwise fun a b => compare a.1 b.1 = .lt := by
    have := layout.ascending
    rw [← List.pairwise_map (f := Prod.fst) (R := fun a b => compare a b = .lt), ← names] at this
    exact List.pairwise_map.mp this
  simp [Dict.keys, Dict.values, Dict.entries_ofList ascending, names]

private theorem optional_payloads (unit payload : Class) :
    (Dict.ofList [(Optional.absent, unit), (Optional.present, payload)]).entries =
      [(Optional.absent, unit), (Optional.present, payload)] :=
  Dict.entries_ofList (by simpa using by decide)

theorem enumClasses_sound {enum : String} (hs : s.Wf) :
    Sound φ s (enumClasses decls enum span)
      (fun r t => r.1 < t.size ∧ ∀ c ∈ r.2.values, c < t.size)
      (fun r => Enumerates decls enum (φ r.1) r.2.keys (r.2.values.map φ)) := by
  unfold enumClasses
  split
  next optional =>
    refine .bind (alloc_sound hs (by simp [Shape.parts])) fun payload t ht _ hp => ?_
    refine .bind (alloc_sound ht (by simp [Shape.parts])) fun unit t ht le hu => ?_
    have hp := Nat.lt_of_lt_of_le hp le.size
    refine .bind (alloc_sound ht (by simpa [Shape.parts] using hp)) fun cls t ht le hc => ?_
    refine .pure ht ⟨hc, ?_⟩ fun reads unitReads _ => ?_
    · simp only [Dict.values, optional_payloads]
      have hu := Nat.lt_of_lt_of_le hu le.size
      have hp := Nat.lt_of_lt_of_le hp le.size
      simpa using ⟨hu, hp⟩
    · simp only [Dict.keys, Dict.values, optional_payloads]
      rw [reads (by simp), optional]
      simpa [unitReads, Shape.map, Ty.ofShape] using Enumerates.optional (φ payload)
  next declared =>
    refine .bind (resolved_sound hs) fun layout t ht _ known => ?_
    refine .bind (loadCases_sound ht) fun cs t ht _ hcs => ?_
    refine .bind (alloc_sound ht (by simp [Shape.parts])) fun cls t ht le hc => ?_
    obtain ⟨keys, values⟩ := payloads_eq hcs.1
    refine .pure ht ⟨hc, ?_⟩ fun reads admits _ => ?_
    · intro c hmem
      rw [values] at hmem
      obtain ⟨x, hx, rfl⟩ := List.mem_map.mp hmem
      exact Nat.lt_of_lt_of_le (hcs.2 x hx) le.size
    · rw [keys, values, reads (by simp)]
      exact .declared declared known admits

theorem enumClasses_completes {enum : String} {names : List String} {payloads : List Ty}
    (hs : s.Wf) (model : s.Model φ) (h : Enumerates decls enum u names payloads) :
    Completes φ s (enumClasses decls enum span) fun r t ψ =>
      r.1 < t.size ∧ ψ r.1 = u ∧ r.2.keys = names ∧ (∀ c ∈ r.2.values, c < t.size) ∧
        r.2.values.map ψ = payloads := by
  cases h with
  | optional u =>
    rw [enumClasses, if_pos rfl]
    have new : Completes φ s (alloc .any span) fun c t ψ => c < t.size ∧ ψ c = u :=
      alloc_completes hs model (by simp [Shape.parts]) (by simp)
    refine .bind new fun payload t ψ ext hp => ?_
    refine .bind (alloc_completes ext.wf ext.model (by simp [Shape.parts]) fun _ => rfl)
      fun unit t ψ ext hu => ?_
    have lt := Nat.lt_of_lt_of_le hp.1 ext.le.size
    have read : ψ payload = u := (ext.keep hp.1).trans hp.2
    refine .bind (alloc_completes ext.wf ext.model (by simpa [Shape.parts] using lt) fun _ => rfl)
      fun cls t ψ ext hc => ?_
    refine .pure ext.wf ext.model ⟨hc.1, ?_, ?_⟩
    · rw [hc.2, Shape.map, read, Ty.ofShape]
    · simp only [Dict.keys, Dict.values, optional_payloads]
      have hu' := Nat.lt_of_lt_of_le hu.1 ext.le.size
      have lt' := Nat.lt_of_lt_of_le lt ext.le.size
      simpa [ext.keep hu.1, ext.keep lt, hu.2, read, Shape.map, Ty.ofShape] using ⟨hu', lt'⟩
  | @declared _ layout _ other known admits =>
    rw [enumClasses, if_neg other, resolved_run known, pure_bind]
    refine .bind (loadCases_completes hs model admits) fun cs t ψ ext hcs => ?_
    refine .bind (alloc_completes ext.wf ext.model (by simp [Shape.parts]) fun _ => rfl)
      fun cls t ψ ext hc => ?_
    obtain ⟨keys, values⟩ := payloads_eq hcs.1
    have payloads := ext.carryAll ⟨List.forall_mem_map.mpr hcs.2.1, hcs.2.2⟩
    exact .pure ext.wf ext.model ⟨hc.1, hc.2, keys, values ▸ payloads⟩

end Enums

section Operators

/-- Every shape of a signature names shapes before it only. -/
theorem signature_before {o : Op} {shapes : List (Shape Nat)} (h : o.signature = some shapes) :
    ∀ x ∈ shapes.zipIdx, ∀ q ∈ x.1.parts, q < x.2 := by
  cases o with
  | minus k | add k | sub k | mul k | div k | lt k | le k | gt k | ge k =>
    cases k <;> cases h <;> decide
  | _ =>
    cases h
    decide

theorem signature_ne_nil {o : Op} {shapes : List (Shape Nat)} (h : o.signature = some shapes) :
    shapes ≠ [] := by
  cases o with
  | minus k | add k | sub k | mul k | div k | lt k | le k | gt k | ge k =>
    cases k <;> cases h <;> decide
  | _ =>
    cases h
    decide

/-- The classes for the shapes from some point of a signature on. -/
def instantiateFrom (start : Class) (span : Span) (shapes : List (Shape Nat)) (last : Class) :
    TypeM Class :=
  shapes.foldlM (fun _ shape => alloc (shape.map (start + ·)) span) last

theorem instantiateFrom_cons (start : Class) (p : Shape Nat) (shapes : List (Shape Nat))
    (last : Class) : instantiateFrom start span (p :: shapes) last =
      alloc (p.map (start + ·)) span >>= instantiateFrom start span shapes :=
  List.foldlM_cons

theorem instantiate_eq (shapes : List (Shape Nat)) :
    (modifyGet (Store.instantiate shapes span) : TypeM Class) s =
      instantiateFrom s.size span shapes s.size s := by
  have run : ∀ (last : Class) (start : Class) (t : Store),
      (modifyGet (shapes.foldlM (fun _ shape => Store.alloc (shape.map (start + ·)) span) last) :
        TypeM Class) t = instantiateFrom start span shapes last t := by
    induction shapes with
    | nil => exact fun _ _ _ => rfl
    | cons p shapes ih => exact fun _ start t => ih _ start _
  exact run s.size s.size s

private theorem instantiateFrom_parts {start : Class} {n : Nat} {p : Shape Nat}
    (size : s.size = start + n) (before : ∀ q ∈ p.parts, q < n) :
    ∀ q ∈ (p.map (start + ·)).parts, q < s.size := by
  rw [Shape.parts_map, size]
  intro q hq
  obtain ⟨i, hi, rfl⟩ := List.mem_map.mp hq
  exact Nat.add_lt_add_left (before i hi) start

theorem instantiateFrom_sound {start last : Class} {n : Nat} {shapes : List (Shape Nat)}
    (hs : s.Wf) (size : s.size = start + n) (some : shapes = [] → last + 1 = s.size)
    (before : ∀ x ∈ shapes.zipIdx n, ∀ q ∈ x.1.parts, q < x.2) :
    Sound φ s (instantiateFrom start span shapes last)
      (fun c t => c + 1 = t.size ∧ t.size = s.size + shapes.length)
      (fun _ => ∀ x ∈ shapes.zipIdx n, x.1 ≠ .any →
        φ (start + x.2) = .ofShape (x.1.map fun i => φ (start + i))) := by
  induction shapes generalizing s n last with
  | nil => exact .pure hs ⟨some rfl, rfl⟩ (by simp)
  | cons p shapes ih =>
    obtain ⟨head, tail⟩ := List.forall_mem_cons.mp (List.zipIdx_cons ▸ before)
    rw [instantiateFrom_cons]
    refine .bind (alloc_sound_next hs (instantiateFrom_parts size head)) fun c t ht _ hc => ?_
    have size' : t.size = start + (n + 1) := by rw [hc.2, size, Nat.add_assoc]
    have next : c + 1 = t.size := by rw [hc.1, hc.2]
    refine (ih ht size' (fun _ => next) tail).imp (fun d u _ h => ?_) fun d reads read => ?_
    · refine ⟨h.1, ?_⟩
      rw [h.2, hc.2, List.length_cons]
      omega
    · rw [List.zipIdx_cons]
      refine List.forall_mem_cons.mpr ⟨fun known => ?_, reads⟩
      rw [← size, ← hc.1, read (by simpa using known), Shape.map_map]
      rfl

/-- A new operator node may have any type that the signature of the operator allows. -/
theorem instantiateFrom_completes {start last : Class} {n : Nat} {shapes : List (Shape Nat)}
    {types : Nat → Ty} (hs : s.Wf) (model : s.Model φ) (size : s.size = start + n)
    (some : shapes = [] → last + 1 = s.size)
    (before : ∀ x ∈ shapes.zipIdx n, ∀ q ∈ x.1.parts, q < x.2)
    (reads : ∀ i < n, φ (start + i) = types i)
    (solves : ∀ x ∈ shapes.zipIdx n, x.1 ≠ .any → types x.2 = .ofShape (x.1.map types)) :
    Completes φ s (instantiateFrom start span shapes last) fun c t ψ =>
      (c + 1 = t.size ∧ t.size = s.size + shapes.length) ∧
        ∀ i < n + shapes.length, ψ (start + i) = types i := by
  induction shapes generalizing s φ n last with
  | nil => exact .pure hs model ⟨⟨some rfl, rfl⟩, reads⟩
  | cons p shapes ih =>
    obtain ⟨head, tail⟩ := List.forall_mem_cons.mp (List.zipIdx_cons ▸ before)
    obtain ⟨here, later⟩ := List.forall_mem_cons.mp (List.zipIdx_cons ▸ solves)
    rw [instantiateFrom_cons]
    have parts := instantiateFrom_parts size head
    have new : Completes φ s (alloc (p.map (start + ·)) span) fun c t ψ =>
        (c = s.size ∧ t.size = s.size + 1) ∧ ψ c = types n := by
      refine alloc_completes_next hs model parts fun known => ?_
      rw [here (by simpa using known), Shape.map_map]
      exact congrArg _ (Shape.map_congr fun i hi => (reads i (head i hi)).symm)
    refine .bind new fun c t ψ ext hc => ?_
    have size' : t.size = start + (n + 1) := by rw [hc.1.2, size, Nat.add_assoc]
    have next : c + 1 = t.size := by rw [hc.1.1, hc.1.2]
    have reads' : ∀ i < n + 1, ψ (start + i) = types i := by
      intro i hi
      rcases Nat.lt_succ_iff_lt_or_eq.mp hi with lt | rfl
      · rw [ext.keep (size ▸ Nat.add_lt_add_left lt start), reads i lt]
      · rw [← size, ← hc.1.1, hc.2]
    refine (ih ext.wf ext.model size' (fun _ => next) tail reads' later).imp fun d u χ _ h => ?_
    refine ⟨⟨h.1.1, ?_⟩, fun i hi => h.2 i ?_⟩
    · rw [h.1.2, hc.1.2, List.length_cons]
      omega
    · rw [List.length_cons] at hi
      omega

private theorem last_eq {c size count : Nat} (h : c + 1 = size + count) (pos : 0 < count) :
    c = size + (count - 1) := by omega

theorem instantiate_sound {o : Op} {shapes : List (Shape Nat)} (hs : s.Wf)
    (h : o.signature = some shapes) :
    Sound φ s (modifyGet (Store.instantiate shapes span)) (fun c t => c < t.size)
      (fun c => o.HasTy (φ c)) := by
  intro c t run
  rw [instantiate_eq] at run
  have ne := signature_ne_nil h
  obtain ⟨ht, le, bound, holds⟩ :=
    instantiateFrom_sound hs rfl (fun nil => absurd nil ne) (signature_before h) c t run
  refine ⟨ht, le, Nat.lt_of_succ_le (Nat.le_of_eq bound.1), fun model => ?_⟩
  refine ⟨shapes, fun i => φ (s.size + i), h, holds model, congrArg φ ?_⟩
  exact last_eq (bound.1.trans bound.2) (List.length_pos_iff.mpr ne)

theorem instantiate_completes {o : Op} {shapes : List (Shape Nat)} (hs : s.Wf) (model : s.Model φ)
    (h : o.signature = some shapes) (typed : o.HasTy u) :
    Completes φ s (modifyGet (Store.instantiate shapes span)) fun c t ψ =>
      c < t.size ∧ ψ c = u := by
  obtain ⟨shapes', types, h', solves, rfl⟩ := typed
  obtain rfl : shapes = shapes' := Option.some.inj (h.symm.trans h')
  have ne := signature_ne_nil h
  have start : s.size = s.size + 0 := rfl
  obtain ⟨c, t, ψ, run, ext, bound, reads⟩ := instantiateFrom_completes hs model start
    (fun nil => absurd nil ne) (signature_before h) (by simp) solves
  rw [← instantiate_eq] at run
  have pos := List.length_pos_iff.mpr ne
  refine ⟨c, t, ψ, run, ext, Nat.lt_of_succ_le (Nat.le_of_eq bound.1), ?_⟩
  rw [last_eq (bound.1.trans bound.2) pos]
  exact reads _ (by omega)

end Operators

end Ordinance.Typing
