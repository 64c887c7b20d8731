import Ordinance.Proofs.Expr.Scope
import Ordinance.Proofs.Lift.Run

namespace Ordinance.Lift

/-- The second list has the variables of the first, and beside them one for each number from `n` up
to `m`. -/
structure Adds (n m : Nat) (xs ys : List Var) : Prop where
  le : n ≤ m
  count : ∀ i, (ys.map Var.id).count i =
    (xs.map Var.id).count i + if n ≤ i ∧ i < m then 1 else 0

namespace Adds

variable {n m k : Nat} {xs ys zs xs' ys' : List Var} {x : Var}

theorem same (n : Nat) (h : xs.Perm ys) : Adds n n xs ys where
  le := Nat.le_refl n
  count i := by
    have none : ¬ (n ≤ i ∧ i < n) := by omega
    rw [if_neg none, Nat.add_zero, (h.map Var.id).count_eq]

theorem trans (h : Adds n k xs ys) (h' : Adds k m ys zs) : Adds n m xs zs where
  le := Nat.le_trans h.le h'.le
  count i := by
    have first := h.count i
    have second := h'.count i
    have le := h.le
    have le' := h'.le
    split_ifs at * <;> omega

theorem append (h : Adds n k xs ys) (h' : Adds k m xs' ys') :
    Adds n m (xs ++ xs') (ys ++ ys') where
  le := Nat.le_trans h.le h'.le
  count i := by
    have first := h.count i
    have second := h'.count i
    have le := h.le
    have le' := h'.le
    simp only [List.map_append, List.count_append]
    split_ifs at * <;> omega

theorem next (hx : x.id = n) : Adds n (n + 1) [] [x] where
  le := Nat.le_succ n
  count i := by
    simp only [List.map_cons, List.map_nil, List.count_cons, List.count_nil, hx, beq_iff_eq]
    split_ifs <;> omega

theorem ofRange {count : Nat} (ids : ys.map Var.id = List.range' n count) :
    Adds n (n + count) [] ys := by
  refine ⟨Nat.le_add_right n count, fun i => ?_⟩
  have nodup : (List.range' n count).Nodup := List.nodup_range'
  rw [ids, List.map_nil, List.count_nil, Nat.zero_add, nodup.count]
  simp only [List.mem_range'_1]

/-- Variables that were added to none are numbered apart, and within the bounds. -/
theorem nodup (h : Adds n m [] ys) : (ys.map Var.id).Nodup := by
  refine List.nodup_iff_count_le_one.mpr fun i => ?_
  rw [h.count i, List.map_nil, List.count_nil]
  split_ifs <;> omega

theorem bounds (h : Adds n m [] ys) (hx : x ∈ ys) : n ≤ x.id ∧ x.id < m := by
  have counted : 0 < (ys.map Var.id).count x.id := List.count_pos_iff.mpr (List.mem_map_of_mem hx)
  rw [h.count, List.map_nil, List.count_nil] at counted
  by_contra outside
  rw [if_neg outside] at counted
  omega

end Adds

/-- The expressions are made from `parts` with numbers from `n` up to `m`: each of these numbers is
bound once in them, nothing else is but what the parts bind, and they refer to nothing but to `xs`
and what the parts refer to. -/
structure Made (n m : Nat) (xs : List Var) (parts outs : List (Expr Mark)) : Prop where
  binders : Adds n m (parts.flatMap Expr.binders) (outs.flatMap Expr.binders)
  free : outs.flatMap Expr.free ⊆ xs ++ parts.flatMap Expr.free

namespace Made

variable {n m k : Nat} {xs ys : List Var} {parts parts' outs outs' : List (Expr Mark)}
  {e body : Expr Mark} {x : Var} {span : Span}

theorem same (n : Nat) (xs : List Var) (es : List (Expr Mark)) : Made n n xs es es where
  binders := .same n (.refl _)
  free := List.subset_append_right _ _

/-- Where no number was drawn it does not matter which would have been next. -/
theorem shift (h : Made n n xs parts outs) (m : Nat) : Made m m xs parts outs where
  binders := by
    refine ⟨Nat.le_refl m, fun i => ?_⟩
    have counted := h.binders.count i
    split_ifs at * <;> omega
  free := h.free

theorem perm (h : Made n m xs parts outs) (hp : parts.Perm parts') (ho : outs.Perm outs') :
    Made n m xs parts' outs' where
  binders := ((Adds.same n (hp.symm.flatMap_right _)).trans h.binders).trans
    (.same m (ho.flatMap_right _))
  free := by
    intro x hx
    have hx := h.free ((ho.symm.flatMap_right _).subset hx)
    rcases List.mem_append.mp hx with hx | hx
    · exact List.mem_append_left _ hx
    · exact List.mem_append_right _ ((hp.flatMap_right _).subset hx)

theorem append (h : Made n k xs parts outs) (h' : Made k m xs parts' outs') :
    Made n m xs (parts ++ parts') (outs ++ outs') where
  binders := by
    simpa only [List.flatMap_append] using h.binders.append h'.binders
  free := by
    intro x hx
    rw [List.flatMap_append, List.mem_append] at hx
    simp only [List.flatMap_append, List.mem_append]
    rcases hx with hx | hx
    · rcases List.mem_append.mp (h.free hx) with hx | hx
      · exact .inl hx
      · exact .inr (.inl hx)
    · rcases List.mem_append.mp (h'.free hx) with hx | hx
      · exact .inl hx
      · exact .inr (.inr hx)

/-- Expressions that are made of others, which were made before. -/
theorem trans {es : List (Expr Mark)} (h : Made n k xs parts es) (h' : Made k m xs es outs) :
    Made n m xs parts outs where
  binders := h.binders.trans h'.binders
  free := by
    intro x hx
    rcases List.mem_append.mp (h'.free hx) with hx | hx
    · exact List.mem_append_left _ hx
    · exact h.free hx

theorem widen (h : Made n m xs parts outs) (sub : xs ⊆ ys) : Made n m ys parts outs where
  binders := h.binders
  free := by
    intro x hx
    rcases List.mem_append.mp (h.free hx) with hx | hx
    · exact List.mem_append_left _ (sub hx)
    · exact List.mem_append_right _ hx

/-- A node that binds nothing is made of what its parts are made of. -/
theorem node (params : e.params = []) (named : e.named ⊆ xs)
    (h : Made n m xs parts e.children) : Made n m xs parts [e] where
  binders := by simpa [e.binders_eq, params] using h.binders
  free := by
    intro x hx
    have hx : x ∈ e.named ∨ x ∈ e.children.flatMap Expr.free := by
      simpa [e.mem_free_iff, params] using hx
    rcases hx with hx | hx
    · exact List.mem_append_left _ (named hx)
    · exact h.free hx

theorem op {o : Op} {mark : Mark} : Made n n xs [] [.op o mark] :=
  .node rfl (List.nil_subset _) (same n xs [])

theorem ref (hx : x ∈ xs) : Made n n xs [] [ref x span] :=
  .node rfl (List.cons_subset.mpr ⟨hx, List.nil_subset _⟩) (same n xs [])

theorem refs (sub : ys ⊆ xs) : Made n n xs [] (refs ys span) := by
  induction ys with
  | nil => exact same n xs []
  | cons y ys ih =>
    obtain ⟨hy, sub⟩ := List.cons_subset.mp sub
    exact (ref hy).append (ih sub)

theorem wrapped (sub : ys ⊆ xs) :
    Made n n xs [] (ys.map fun y => wrap (Lift.ref y span) span) := by
  induction ys with
  | nil => exact same n xs []
  | cons y ys ih =>
    obtain ⟨hy, sub⟩ := List.cons_subset.mp sub
    have first : Made n n xs [] [wrap (Lift.ref y span) span] :=
      .node rfl (List.nil_subset _) (ref hy)
    exact first.append (ih sub)

theorem wrap (h : Made n m xs parts [e]) : Made n m xs parts [wrap e span] :=
  .node rfl (List.nil_subset _) h

theorem nothing : Made n n xs [] [nothing span] := by
  have unit : Made n n xs [] [.lit .unit (.erased span)] :=
    .node rfl (List.nil_subset _) (same n xs [])
  exact .node rfl (List.nil_subset _) unit

theorem apply {f : Expr Mark} {args : List (Expr Mark)} (h : Made n m xs parts (f :: args)) :
    Made n m xs parts [apply f args span] :=
  .node rfl (List.nil_subset _) h

/-- The variables of a function come before its body. -/
theorem lambda {tys : List Ty} (hy : Adds n k [] ys) (h : Made k m (ys ++ xs) parts [body]) :
    Made n m xs parts [lambda ys tys body span] where
  binders := by
    have binders : [Lift.lambda ys tys body span].flatMap Expr.binders = ys ++ body.binders := by
      simp [Lift.lambda, Expr.binders_eq (.lam _ _ _ _), Expr.params, Expr.children]
    have below : Adds k m (parts.flatMap Expr.binders) body.binders := by simpa using h.binders
    rw [binders]
    exact hy.append below
  free := by
    intro x hx
    obtain ⟨hx, unbound⟩ : x ∈ body.free ∧ x ∉ ys := by
      simpa [Lift.lambda, Expr.mem_free_iff (e := .lam _ _ _ _), Expr.named, Expr.params,
        Expr.children] using hx
    have hx : x ∈ [body].flatMap Expr.free := by simpa using hx
    rcases List.mem_append.mp (h.free hx) with hx | hx
    · rcases List.mem_append.mp hx with hx | hx
      · exact absurd hx unbound
      · exact List.mem_append_left _ hx
    · exact List.mem_append_right _ hx

theorem adds (h : Made n m xs [] [e]) : Adds n m [] e.binders := by
  simpa using h.binders

theorem free_subset (h : Made n m xs [] [e]) : e.free ⊆ xs := by
  simpa using h.free

end Made

section Runs

variable {n k : Nat} {zs : List Var} {parts rest : List (Expr Mark)}
  {arg body ifAbsent ifPresent : Expr Mark} {args : List (Expr Mark)} {x : Var} {span : Span}

theorem freshMany_ids (name : String) (count : Nat) : Draws n (freshMany name count) fun ys m =>
    ys.map Var.id = List.range' n count ∧ m = n + count := by
  induction count generalizing n with
  | zero => exact .pure ⟨rfl, rfl⟩
  | succ count ih =>
    refine .bind (.fresh name) fun y m _ hy => ?_
    obtain ⟨rfl, rfl⟩ := hy
    refine .bind ih fun ys m _ hys => .pure ?_
    obtain ⟨ids, rfl⟩ := hys
    exact ⟨congrArg (y.id :: ·) ids, by omega⟩

theorem thunk_made (h : Made n n zs parts [body]) :
    Draws n (thunk body span) fun out m => Made n m zs parts [out] := by
  refine .bind (.fresh "_") fun y m _ hy => .pure ?_
  obtain ⟨rfl, rfl⟩ := hy
  exact .lambda (.next rfl) ((h.shift _).widen (List.subset_cons_self y zs))

/-- The variable of the absent case is the last to be drawn. -/
theorem inspect_made (present : Made n k zs rest [lambda [x] [.any] ifPresent span])
    (absent : Made k k zs parts [ifAbsent]) :
    Draws k (inspect arg ifAbsent x ifPresent span) fun out m =>
      Made n m zs (arg :: (rest ++ parts)) [out] := by
  refine .bind (thunk_made absent) fun f m _ hf => .pure ?_
  have cases := ((Made.same n zs [arg]).append present).append hf
  refine .node rfl (List.nil_subset _) (cases.perm (.refl _) ?_)
  exact (List.Perm.swap f _ []).cons arg

theorem bind_made (hx : x.id = n) (hbody : Made (n + 1) k (x :: zs) rest [body]) :
    Draws k (bind x arg body span) fun out m => Made n m zs (arg :: rest) [out] := by
  have present : Made n k zs rest [lambda [x] [.any] body span] := .lambda (.next hx) hbody
  refine (inspect_made present .nothing).imp fun out m _ hout => ?_
  rwa [List.append_nil] at hout

theorem bindFresh_made {g : Var → Supply (Expr Mark)}
    (hg : ∀ x, Draws (n + 1) (g x) fun body m => Made (n + 1) m (x :: zs) rest [body]) :
    Draws n (bindFresh arg g span) fun out m => Made n m zs (arg :: rest) [out] := by
  refine .bind (.fresh "x") fun x m _ hx => ?_
  obtain ⟨hx, rfl⟩ := hx
  exact .bind (hg x) fun body k _ hbody => bind_made hx hbody

/-- The variables are drawn in order and bound from the last to the first, so what is under each of
them has the numbers after it. -/
theorem bindEach_made {xs : List Var} (ids : xs.map Var.id = List.range' n args.length)
    (hbody : Made (n + args.length) k (xs ++ zs) rest [body]) :
    Draws k (bindEach body span (xs.zip args)) fun out m => Made n m zs (args ++ rest) [out] := by
  induction args generalizing n xs zs with
  | nil =>
    obtain rfl : xs = [] := by simpa using ids
    exact .pure hbody
  | cons arg args ih =>
    obtain ⟨x, xs, rfl⟩ : ∃ x xs', xs = x :: xs' :=
      List.exists_cons_of_length_eq_add_one (by simpa using congrArg List.length ids)
    obtain ⟨hx, ids⟩ := List.cons.inj ids
    have later : n + (args.length + 1) = n + 1 + args.length := by omega
    rw [List.length_cons, later] at hbody
    have hbody : Made (n + 1 + args.length) k (xs ++ x :: zs) rest [body] :=
      hbody.widen (List.perm_middle.symm.subset)
    exact .bind (ih ids hbody) fun out m _ hout => bind_made hx hout

theorem bindAll_made {g : List Var → Supply (Expr Mark)}
    (hg : ∀ xs k, xs.length = args.length →
      Draws k (g xs) fun body m => Made k m (xs ++ zs) rest [body]) :
    Draws n (bindAll args g span) fun out m => Made n m zs (args ++ rest) [out] := by
  refine .bind (freshMany_ids "x" args.length) fun xs m _ hxs => ?_
  obtain ⟨ids, rfl⟩ := hxs
  have length : xs.length = args.length := by simpa using congrArg List.length ids
  exact .bind (hg xs _ length) fun body k _ hbody => bindEach_made ids hbody

/-- The body that only refers to the new variables. -/
theorem bindAll_made_of_refs {g : List Var → Expr Mark}
    (hg : ∀ xs k, xs.length = args.length → Made k k (xs ++ zs) [] [g xs]) :
    Draws n (bindAll args (fun xs => (return g xs : Supply (Expr Mark))) span) fun out m =>
      Made n m zs args [out] := by
  have made : Draws n (bindAll args (fun xs => (return g xs : Supply (Expr Mark))) span)
      fun out m => Made n m zs (args ++ []) [out] :=
    bindAll_made fun xs k length => .pure (hg xs k length)
  rwa [List.append_nil] at made

theorem applyAll_made {f : Expr Mark} (hf : ∀ k, Made k k zs [] [f]) :
    Draws n (applyAll f args span) fun out m => Made n m zs args [out] :=
  bindAll_made_of_refs fun xs k _ =>
    .apply (((hf k).widen (List.subset_append_right xs zs)).append
      (.refs (List.subset_append_left xs zs)))

theorem mapAll_made {o : Op} {mark : Mark} :
    Draws n (mapAll (.op o mark) args span) fun out m => Made n m zs args [out] :=
  bindAll_made_of_refs fun xs _ _ =>
    .wrap (.apply (Made.op.append (.refs (List.subset_append_left xs zs))))

theorem unwrap_made : Draws n (unwrap arg span) fun out m => Made n m zs [arg] [out] := by
  refine .bind (.fresh "x") fun x m _ hx => ?_
  obtain ⟨hx, rfl⟩ := hx
  have present : Made n (n + 1) zs [] [lambda [x] [.any] (ref x span) span] :=
    .lambda (.next hx) (.ref List.mem_cons_self)
  exact inspect_made present (.node rfl (List.nil_subset _) (.same _ zs []))

end Runs

section Forms

variable {n : Nat} {zs : List Var} {e f xs : Expr Mark} {es : List (Expr Mark)} {span : Span}

theorem rescueEmpty_made {body handler : Expr Mark} :
    Draws n (rescueEmpty body handler span) fun out m => Made n m zs [body, handler] [out] := by
  refine .bind (.fresh "x") fun x m _ hx => ?_
  obtain ⟨hx, rfl⟩ := hx
  have present : Made n (n + 1) zs [] [lambda [x] [.any] (wrap (ref x span) span) span] :=
    .lambda (.next hx) (.wrap (.ref List.mem_cons_self))
  exact inspect_made present (.same _ zs [handler])

theorem force_made : Draws n (force e span) fun out m => Made n m zs [e] [out] :=
  .bind unwrap_made fun _ _ _ h => .pure h.wrap

theorem default_made {just cons : Expr Mark} :
    Draws n (default es just cons span) fun out m => Made n m zs (es ++ [just, cons]) [out] := by
  refine .bind (thunk_made (.same n zs [just])) fun j k _ hj => ?_
  refine .bind (thunk_made (.same k zs [cons])) fun c m _ hc => .pure ?_
  have array : Made n n zs es [.array es (.erased span)] :=
    .node rfl (List.nil_subset _) (.same n zs es)
  exact .apply (Made.op.append (array.append (hj.append hc)))

theorem tuple_made : Draws n (tuple es span) fun out m => Made n m zs es [out] :=
  bindAll_made_of_refs fun xs _ _ =>
    .wrap (.node rfl (List.nil_subset _) (.refs (List.subset_append_left xs zs)))

theorem array_made : Draws n (array es span) fun out m => Made n m zs es [out] :=
  bindAll_made_of_refs fun xs _ _ =>
    .wrap (.node rfl (List.nil_subset _) (.wrapped (List.subset_append_left xs zs)))

theorem record_made {struct : String} {fields : List (String × Expr Mark)} :
    Draws n (record struct fields span) fun out m => Made n m zs (fields.map (·.2)) [out] := by
  refine bindAll_made_of_refs fun xs k length => .wrap (.node rfl (List.nil_subset _) ?_)
  have values : Made k k (xs ++ zs) [] (xs.map fun x => wrap (ref x span) span) :=
    .wrapped (List.subset_append_left xs zs)
  have length : (xs.map fun x => wrap (ref x span) span).length ≤ (fields.map (·.1)).length := by
    simp [length]
  rwa [← List.map_snd_zip length] at values

/-- The forms that bind one variable to the payload of the first part. -/
theorem bindFresh_made_of_node {g : Var → Expr Mark}
    (hg : ∀ x k, Made k k (x :: zs) es [g x]) :
    Draws n (bindFresh e (fun x => (return g x : Supply (Expr Mark))) span) fun out m =>
      Made n m zs (e :: es) [out] :=
  bindFresh_made fun x => .pure (hg x (n + 1))

theorem component_made {index size : Nat} :
    Draws n (component e index size span) fun out m => Made n m zs [e] [out] :=
  bindFresh_made_of_node fun _ _ =>
    .wrap (.node rfl (List.nil_subset _) (.ref List.mem_cons_self))

theorem field_made {struct name : String} :
    Draws n (field e struct name span) fun out m => Made n m zs [e] [out] :=
  bindFresh_made_of_node fun _ _ => .node rfl (List.nil_subset _) (.ref List.mem_cons_self)

theorem inject_made {enum ctor : String} :
    Draws n (inject enum ctor e span) fun out m => Made n m zs [e] [out] :=
  bindFresh_made_of_node fun _ _ =>
    .wrap (.node rfl (List.nil_subset _) (.ref List.mem_cons_self))

theorem assert_made : Draws n (assert e span) fun out m => Made n m zs [e] [out] :=
  bindFresh_made_of_node fun _ _ =>
    .wrap (.node rfl (List.nil_subset _) (.ref List.mem_cons_self))

theorem switch_made {enum : String} {cases : List (String × Expr Mark)} :
    Draws n (switch e enum cases span) fun out m =>
      Made n m zs (e :: cases.map (·.2)) [out] :=
  bindFresh_made_of_node fun x k => .node rfl (List.nil_subset _)
    ((Made.ref List.mem_cons_self).append (.same k (x :: zs) _))

theorem ite_made {yes no : Expr Mark} :
    Draws n (ite e yes no span) fun out m => Made n m zs [e, yes, no] [out] :=
  bindFresh_made_of_node fun x k => .node rfl (List.nil_subset _)
    ((Made.ref List.mem_cons_self).append (.same k (x :: zs) [yes, no]))

theorem operator_made {o : Op} : Draws n (operator o span) fun out m => Made n m zs [] [out] := by
  refine .bind (freshMany_ids "x" o.arity) fun xs m _ hxs => .pure (.wrap ?_)
  obtain ⟨ids, rfl⟩ := hxs
  exact .lambda (.ofRange ids)
    (.wrap (.apply (Made.op.append (.refs (List.subset_append_left xs zs)))))

theorem call_made : Draws n (call f es span) fun out m => Made n m zs (f :: es) [out] :=
  bindFresh_made fun _ => applyAll_made fun _ => .ref List.mem_cons_self

theorem scopeCall_made {target : Var} {struct : String} {fields : List (String × Expr Mark)}
    {argSpan : Span} (h : target ∈ zs) :
    Made n n zs (fields.map (·.2)) [scopeCall target struct fields argSpan span] := by
  have record : Made n n zs (fields.map (·.2)) [.record struct fields (.erased argSpan)] :=
    .node rfl (List.nil_subset _) (.same n zs _)
  exact .wrap (.apply ((Made.ref h).append record))

theorem onElement_made {g x : Var} (hg : g ∈ zs) (hx : x ∈ zs) :
    Draws n (onElement g x span) fun out m => Made n m zs [] [out] := by
  have made : Draws n (onElement g x span) fun out m => Made n m zs [ref x span] [out] :=
    bindFresh_made_of_node fun y _ =>
      .apply ((Made.ref (List.mem_cons_of_mem y hg)).append (.ref List.mem_cons_self))
  exact made.imp fun out m _ hout => (Made.ref hx).trans hout

/-- A list operator on a function of one element. -/
theorem mapped_made {o : Op} {g : Var → Var → Supply (Expr Mark)}
    (hg : ∀ f x n zs, f ∈ zs → x ∈ zs → Draws n (g f x) fun out m => Made n m zs [] [out]) :
    Draws n (bindFresh f (fun f => bindFresh xs (fun xs => do
      let x ← fresh "x"
      let body ← g f x
      let step := lambda [x] [.any] body span
      return wrap (apply (.op o (.erased span)) [step, ref xs span] span) span) span) span)
      fun out m => Made n m zs [f, xs] [out] := by
  refine bindFresh_made fun f => bindFresh_made fun xs => ?_
  refine .bind (.fresh "x") fun x m _ hx => ?_
  obtain ⟨hx, rfl⟩ := hx
  refine .bind (hg f x _ (x :: xs :: f :: zs) (by simp) (by simp)) fun body m _ hbody =>
    .pure (.wrap (.apply ?_))
  exact Made.op.append ((Made.lambda (.next hx) hbody).append (.ref List.mem_cons_self))

theorem map_made : Draws n (map f xs span) fun out m => Made n m zs [f, xs] [out] :=
  mapped_made fun _ _ _ _ => onElement_made

theorem filter_made : Draws n (filter f xs span) fun out m => Made n m zs [f, xs] [out] := by
  refine mapped_made (g := fun f x => onElement f x span >>= (unwrap · span)) ?_
  intro f x n zs hf hx
  refine .bind (onElement_made hf hx) fun body k _ hbody => ?_
  exact unwrap_made.imp fun out m _ hout => hbody.trans hout

/-- The initial value stays where it is, under the two variables. -/
theorem foldWith_made {o : Op} {init : Expr Mark} :
    Draws n (foldWith o f init xs span) fun out m => Made n m zs [f, xs, init] [out] := by
  refine bindFresh_made fun f => bindFresh_made fun xs => ?_
  refine .bind (.fresh "acc") fun acc m _ hacc => ?_
  obtain ⟨hacc, rfl⟩ := hacc
  refine .bind (.fresh "x") fun x m _ hx => ?_
  obtain ⟨hx, rfl⟩ := hx
  have known (k : Nat) : Made k k ([acc, x] ++ xs :: f :: zs) [] [ref f span] := .ref (by simp)
  refine .bind (applyAll_made known) fun body m _ hbody => .pure (.apply ?_)
  have params : Adds (n + 2) (n + 4) [] [acc, x] :=
    (Adds.next hacc).append (.next hx)
  have step : Made (n + 2) m (xs :: f :: zs) [] [lambda [acc, x] [.any, .any] body span] := by
    have args : Made (n + 4) (n + 4) ([acc, x] ++ xs :: f :: zs) [] (refs [acc, x] span) :=
      .refs (List.subset_append_left _ _)
    exact .lambda params (args.trans hbody)
  exact Made.op.append (step.append ((Made.same _ _ [init]).append (.ref List.mem_cons_self)))

theorem listCall_made {o : Op} : Lifts n (listCall o es span) fun out m => Made n m zs es [out] := by
  unfold listCall
  split
  · exact .supply map_made
  · exact .supply filter_made
  · exact .supply (foldWith_made.imp fun _ _ _ h => h.perm ((List.Perm.swap _ _ []).cons _) (.refl _))
  · exact .supply (foldWith_made.imp fun _ _ _ h => h.perm ((List.Perm.swap _ _ []).cons _) (.refl _))
  · exact .fail

end Forms

end Ordinance.Lift
