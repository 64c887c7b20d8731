import Ordinance.Proofs.Lift.Output.Program

namespace Ordinance

namespace Lift

open Ordinance.Expr

section Build

variable {n : Nat} {span : Span} {arg body ifAbsent ifPresent : Expr Mark} {args : List (Expr Mark)}
  {x : Var} {s : Nat}

@[simp] theorem size_ref (x : Var) (span : Span) : (ref x span).size = 1 := rfl

@[simp] theorem size_op (o : Op) (span : Span) : (Expr.op o (Mark.erased span)).size = 1 := rfl

@[simp] theorem sizes_refs (xs : List Var) (span : Span) : sizes (refs xs span) = xs.length := by
  induction xs with
  | nil => rfl
  | cons x xs ih => rw [refs, List.map_cons, sizes_cons, size_ref, ← refs, ih, List.length_cons,
      Nat.add_comm]

@[simp] theorem size_wrap (e : Expr Mark) (span : Span) : (wrap e span).size = 1 + e.size :=
  size_eq (wrap e span)

@[simp] theorem sizes_wrapped (xs : List Var) (span : Span) :
    sizes (xs.map fun x => wrap (ref x span) span) = 2 * xs.length := by
  induction xs with
  | nil => rfl
  | cons x xs ih =>
    rw [List.map_cons, sizes_cons, ih, size_wrap, size_ref, List.length_cons]
    omega

@[simp] theorem size_apply (f : Expr Mark) (args : List (Expr Mark)) (span : Span) :
    (apply f args span).size = 1 + f.size + sizes args := by
  rw [Nat.add_assoc]
  exact size_eq (apply f args span)

@[simp] theorem size_lambda (xs : List Var) (tys : List Ty) (body : Expr Mark) (span : Span) :
    (lambda xs tys body span).size = 1 + body.size :=
  size_eq (lambda xs tys body span)

theorem thunk_size : Draws n (thunk body span) fun out _ => out.size = 1 + body.size :=
  .bind (.fresh "_") fun _ _ _ _ => .pure (size_lambda _ _ body span)

theorem inspect_size : Draws n (inspect arg ifAbsent x ifPresent span) fun out _ =>
    out.size = 3 + arg.size + ifAbsent.size + ifPresent.size := by
  refine .bind thunk_size fun f _ _ hf => .pure ?_
  rw [size_eq]
  simp only [children, List.map_cons, List.map_nil, sizes_cons, sizes_nil, size_lambda, hf]
  omega

theorem bind_size : Draws n (bind x arg body span) fun out _ =>
    out.size = 5 + arg.size + body.size := by
  refine inspect_size.imp fun out _ _ h => ?_
  have two : (nothing span).size = 2 := rfl
  omega

theorem bindFresh_size {g : Var → Supply (Expr Mark)}
    (hg : ∀ x n, Draws n (g x) fun body _ => body.size = s) :
    Draws n (bindFresh arg g span) fun out _ => out.size = 5 + arg.size + s := by
  refine .bind (.fresh "x") fun x k _ _ => .bind (hg x k) fun body _ _ hbody => ?_
  exact bind_size.imp fun out _ _ h => by rw [h, hbody]

theorem bindEach_size {xs : List Var} (length : xs.length = args.length) :
    Draws n (bindEach body span (xs.zip args)) fun out _ =>
      out.size = 5 * args.length + sizes args + body.size := by
  induction args generalizing xs n with
  | nil =>
    obtain rfl := List.length_eq_zero_iff.mp length
    exact .pure (by simp)
  | cons arg args ih =>
    obtain ⟨x, xs, rfl⟩ := List.exists_cons_of_length_eq_add_one length
    refine .bind (ih (Nat.succ.inj length)) fun inner _ _ hinner => ?_
    refine bind_size.imp fun out _ _ h => ?_
    rw [List.length_cons, sizes_cons]
    omega

/-- Every argument stands once in the result. -/
theorem bindAll_size {g : List Var → Expr Mark}
    (hg : ∀ xs, xs.length = args.length → (g xs).size = s) :
    Draws n (bindAll args (fun xs => (return g xs : Supply (Expr Mark))) span) fun out _ =>
      out.size = 5 * args.length + sizes args + s := by
  refine .bind (.freshMany "x" args.length) fun xs _ _ hxs => ?_
  exact (bindEach_size hxs.1).imp fun out _ _ h => by rw [h, hg xs hxs.1]

theorem applyAll_size (f : Var) : Draws n (applyAll (ref f span) args span) fun out _ =>
    out.size = 6 * args.length + sizes args + 2 := by
  have called (xs : List Var) (length : xs.length = args.length) :
      (apply (ref f span) (refs xs span) span).size = 2 + args.length := by simp [length]
  refine (bindAll_size called).imp fun out _ _ h => ?_
  omega

theorem mapAll_size (o : Op) :
    Draws n (mapAll (.op o (.erased span)) args span) fun out _ =>
      out.size = 6 * args.length + sizes args + 3 := by
  have called (xs : List Var) (length : xs.length = args.length) :
      (wrap (apply (.op o (.erased span)) (refs xs span) span) span).size = 3 + args.length := by
    simp only [size_wrap, size_apply, size_op, sizes_refs, length]
    omega
  refine (bindAll_size called).imp fun out _ _ h => ?_
  omega

theorem unwrap_size : Draws n (unwrap arg span) fun out _ => out.size = 5 + arg.size := by
  refine .bind (.fresh "x") fun x _ _ _ => inspect_size.imp fun out _ _ h => ?_
  have one : (Expr.raise .noValue (Mark.erased span)).size = 1 := rfl
  rw [one, size_ref] at h
  omega

end Build

section Forms

variable {n : Nat} {span : Span} {e f xs : Expr Mark} {es : List (Expr Mark)} {s : Nat}

theorem rescueEmpty_size {body handler : Expr Mark} :
    Draws n (rescueEmpty body handler span) fun out _ =>
      out.size = 5 + body.size + handler.size := by
  refine .bind (.fresh "x") fun x _ _ _ => inspect_size.imp fun out _ _ h => ?_
  rw [size_wrap, size_ref] at h
  omega

theorem force_size : Draws n (force e span) fun out _ => out.size = 6 + e.size := by
  refine .bind unwrap_size fun out _ _ h => .pure ?_
  rw [size_wrap]
  omega

theorem default_size {just cons : Expr Mark} : Draws n (default es just cons span) fun out _ =>
    out.size = 5 + sizes es + just.size + cons.size := by
  refine .bind thunk_size fun j _ _ hj => .bind thunk_size fun c _ _ hc => .pure ?_
  have array : (Expr.array es (Mark.erased span)).size = 1 + sizes es := size_eq _
  rw [size_apply, size_op, sizes_cons, sizes_cons, sizes_cons, sizes_nil, array, hj, hc]
  omega

theorem tuple_size : Draws n (tuple es span) fun out _ =>
    out.size = 6 * es.length + sizes es + 2 := by
  have made (ys : List Var) (length : ys.length = es.length) :
      (wrap (.tuple (refs ys span) (.erased span)) span).size = 2 + es.length := by
    have parts : (Expr.tuple (refs ys span) (Mark.erased span)).size = 1 + ys.length := by
      rw [size_eq, children, sizes_refs]
    rw [size_wrap, parts, length]
    omega
  refine (bindAll_size made).imp fun out _ _ h => ?_
  omega

theorem array_size : Draws n (array es span) fun out _ =>
    out.size = 7 * es.length + sizes es + 2 := by
  have made (ys : List Var) (length : ys.length = es.length) :
      (wrap (.array (ys.map fun y => wrap (ref y span) span) (.erased span)) span).size =
        2 + 2 * es.length := by
    have parts : (Expr.array (ys.map fun y => wrap (ref y span) span) (Mark.erased span)).size =
        1 + 2 * ys.length := by rw [size_eq, children, sizes_wrapped]
    rw [size_wrap, parts, length]
    omega
  refine (bindAll_size made).imp fun out _ _ h => ?_
  omega

theorem record_size {struct : String} {fields : List (String × Expr Mark)} :
    Draws n (record struct fields span) fun out _ =>
      out.size = 7 * fields.length + sizes (fields.map (·.2)) + 2 := by
  have made (ys : List Var) (length : ys.length = (fields.map (·.2)).length) :
      (wrap (.record struct ((fields.map (·.1)).zip (ys.map fun y => wrap (ref y span) span))
        (.erased span)) span).size = 2 + 2 * fields.length := by
    rw [List.length_map] at length
    have named : (ys.map fun y => wrap (ref y span) span).length ≤ (fields.map (·.1)).length := by
      simp [length]
    rw [size_wrap, size_eq, children, List.map_snd_zip named, sizes_wrapped, length]
    omega
  refine (bindAll_size made).imp fun out _ _ h => ?_
  rw [List.length_map] at h
  omega

/-- The forms that bind one variable to the payload of the first part. -/
theorem bindFresh_size_of_node {g : Var → Expr Mark} (s : Nat) (hg : ∀ x, (g x).size = s) :
    Draws n (bindFresh e (fun x => (return g x : Supply (Expr Mark))) span) fun out _ =>
      out.size = 5 + e.size + s :=
  bindFresh_size fun x _ => .pure (hg x)

theorem component_size {index size : Nat} :
    Draws n (component e index size span) fun out _ => out.size = 5 + e.size + 3 :=
  bindFresh_size_of_node 3 fun _ => rfl

theorem field_size {struct name : String} :
    Draws n (field e struct name span) fun out _ => out.size = 5 + e.size + 2 :=
  bindFresh_size_of_node 2 fun _ => rfl

theorem inject_size {enum ctor : String} :
    Draws n (inject enum ctor e span) fun out _ => out.size = 5 + e.size + 3 :=
  bindFresh_size_of_node 3 fun _ => rfl

theorem assert_size : Draws n (assert e span) fun out _ => out.size = 5 + e.size + 3 :=
  bindFresh_size_of_node 3 fun _ => rfl

theorem switch_size {enum : String} {cases : List (String × Expr Mark)} :
    Draws n (switch e enum cases span) fun out _ =>
      out.size = 5 + e.size + (2 + sizes (cases.map (·.2))) := by
  refine bindFresh_size_of_node _ fun x => ?_
  rw [size_eq, children, sizes_cons, size_ref]
  omega

theorem ite_size {yes no : Expr Mark} : Draws n (ite e yes no span) fun out _ =>
    out.size = 5 + e.size + (2 + yes.size + no.size) := by
  refine bindFresh_size_of_node _ fun x => ?_
  rw [size_eq, children, sizes_cons, sizes_cons, sizes_cons, sizes_nil, size_ref]
  omega

theorem operator_size (o : Op) : Draws n (operator o span) fun out _ => out.size = 5 + o.arity := by
  refine .bind (.freshMany "x" o.arity) fun xs _ _ hxs => .pure ?_
  rw [size_wrap, size_lambda, size_wrap, size_apply, size_op, sizes_refs, hxs.1]
  omega

theorem call_size : Draws n (call f es span) fun out _ =>
    out.size = 5 + f.size + (6 * es.length + sizes es + 2) :=
  bindFresh_size fun g _ => applyAll_size g

theorem size_scopeCall {target : Var} {struct : String} {fields : List (String × Expr Mark)}
    {argSpan : Span} :
    (scopeCall target struct fields argSpan span).size = 4 + sizes (fields.map (·.2)) := by
  rw [scopeCall, size_wrap, size_apply, sizes_cons, sizes_nil, size_ref, size_eq (.record _ _ _),
    children]
  omega

theorem onElement_size (f x : Var) : Draws n (onElement f x span) fun out _ => out.size = 9 :=
  bindFresh_size_of_node 3 fun _ => rfl

theorem map_size : Draws n (map f xs span) fun out _ =>
    out.size = 5 + f.size + (5 + xs.size + 14) := by
  refine bindFresh_size fun g _ => bindFresh_size fun l _ => ?_
  refine .bind (.fresh "x") fun x _ _ _ => .bind (onElement_size g x) fun body _ _ h => .pure ?_
  simp [h]

theorem filter_size : Draws n (filter f xs span) fun out _ =>
    out.size = 5 + f.size + (5 + xs.size + 19) := by
  refine bindFresh_size fun g _ => bindFresh_size fun l _ => ?_
  refine .bind (.fresh "x") fun x _ _ _ => .bind (onElement_size g x) fun test _ _ htest => ?_
  refine .bind unwrap_size fun body _ _ h => .pure ?_
  simp [h, htest]

theorem foldWith_size {o : Op} {init : Expr Mark} : Draws n (foldWith o f init xs span) fun out _ =>
    out.size = 5 + f.size + (5 + xs.size + (20 + init.size)) := by
  refine bindFresh_size fun g _ => bindFresh_size fun l _ => ?_
  refine .bind (.fresh "acc") fun acc _ _ _ => .bind (.fresh "x") fun x _ _ _ => ?_
  refine .bind (applyAll_size g) fun body _ _ h => .pure ?_
  simp [h]
  omega

/-- Of the list operators the folds add most. -/
theorem listCall_size {o : Op} :
    Lifts n (listCall o es span) fun out _ => out.size ≤ 30 + sizes es := by
  unfold listCall
  split
  · exact .supply (map_size.imp fun out _ _ h => by simp; omega)
  · exact .supply (filter_size.imp fun out _ _ h => by simp; omega)
  · exact .supply (foldWith_size.imp fun out _ _ h => by simp; omega)
  · exact .supply (foldWith_size.imp fun out _ _ h => by simp; omega)
  · exact .fail

end Forms

/-- The expression is lifted to at most fifteen nodes for each of its own. Eight of them are left to
pay for what an expression adds for each of its parts. -/
def Bounded (e : Expr Mark) : Prop :=
  ∀ (ctx : Ctx) (n : Nat), Lifts n (e.lift ctx) fun out _ => out.size + 8 ≤ 15 * e.size

variable {ctx : Ctx} {n : Nat} {e : Expr Mark} {es : List (Expr Mark)}

section Parts

theorem liftAll_size (h : ∀ e ∈ es, Bounded e) : Lifts n (Expr.liftAll ctx es) fun outs _ =>
    outs.length = es.length ∧ sizes outs + 8 * es.length ≤ 15 * sizes es := by
  induction es generalizing n with
  | nil => exact .pure ⟨rfl, Nat.le_refl _⟩
  | cons e es ih =>
    obtain ⟨head, rest⟩ := List.forall_mem_cons.mp h
    refine .bind (head ctx n) fun out k _ hout => .bind (ih rest) fun outs _ _ houts => .pure ?_
    obtain ⟨length, size⟩ := houts
    refine ⟨congrArg (· + 1) length, ?_⟩
    rw [sizes_cons, sizes_cons, List.length_cons]
    omega

theorem liftNamed_size {fields : List (String × Expr Mark)}
    (h : ∀ e ∈ fields.map (·.2), Bounded e) :
    Lifts n (Expr.liftNamed ctx fields) fun outs _ => outs.length = fields.length ∧
      sizes (outs.map (·.2)) + 8 * fields.length ≤ 15 * sizes (fields.map (·.2)) := by
  induction fields generalizing n with
  | nil => exact .pure ⟨rfl, Nat.le_refl _⟩
  | cons f fields ih =>
    obtain ⟨head, rest⟩ := List.forall_mem_cons.mp h
    refine .bind (head ctx n) fun out k _ hout => .bind (ih rest) fun outs _ _ houts => .pure ?_
    obtain ⟨length, size⟩ := houts
    refine ⟨congrArg (· + 1) length, ?_⟩
    simp only [List.map_cons, sizes_cons, List.length_cons] at hout ⊢
    omega

theorem liftCases_size {cases : List (String × Expr Mark)}
    (h : ∀ c ∈ cases.map (·.2), ∀ d ∈ c.children, Bounded d) :
    Lifts n (Expr.liftCases ctx cases) fun outs _ =>
      sizes (outs.map (·.2)) ≤ 15 * sizes (cases.map (·.2)) := by
  induction cases generalizing n with
  | nil => exact .pure (Nat.le_refl _)
  | cons x cases ih =>
    obtain ⟨here, rest⟩ := List.forall_mem_cons.mp h
    rw [Expr.liftCases.eq_def]
    split
    next eq => cases eq
    next name v tys body m _ eq =>
      cases eq
      refine .bind (.supply (bind_draws v .payload)) fun r k _ _ => ?_
      refine .bind (here body List.mem_cons_self r.1 k) fun out k _ hout => ?_
      refine .bind (ih rest) fun outs _ _ houts => .pure ?_
      have source : (Expr.lam [v] tys body m).size = 1 + body.size := size_eq _
      rw [List.map_cons, List.map_cons, sizes_cons, sizes_cons, size_lambda, source]
      omega
    next => exact .fail
    next => exact .fail

end Parts

section Nodes

/-- An operator that stands as a value takes two operands at most. -/
theorem arity_le_two {o : Op} (plain : ¬(o.isHigherOrder || o == .resolveDefault) = true) :
    o.arity ≤ 2 := by
  cases o <;> first | exact Nat.le_of_ble_eq_true rfl | exact absurd rfl plain

theorem var_bounded (v : Var) (m : Mark) : Bounded (.var v m) := by
  intro ctx n
  have source : (Expr.var v m).size = 1 := rfl
  refine .bind (lookup_lifts v m.span) fun b _ _ _ => ?_
  cases b.mode with
  | payload => exact .pure (by rw [size_wrap, size_ref, source]; decide)
  | option => exact .pure (by rw [size_ref, source]; decide)
  | scope => exact .fail

theorem lam_bounded {params : List Var} {tys : List Ty} {body : Expr Mark} (m : Mark)
    (h : Bounded body) : Bounded (.lam params tys body m) := by
  intro ctx n
  have source : (Expr.lam params tys body m).size = 1 + body.size := size_eq _
  refine lam_lifts ?_ ?_
  · exact (h ctx n).imp fun out _ _ hout => by omega
  · refine .bind (.supply (bindParams_draws params)) fun r k _ _ => ?_
    refine .bind (h r.1 k) fun out _ _ hout => .pure ?_
    rw [size_wrap, size_lambda]
    omega

theorem app_bounded {f : Expr Mark} {args : List (Expr Mark)} (m : Mark)
    (h : ∀ d ∈ f :: args, Bounded d) (below : ∀ d ∈ args, ∀ c ∈ d.children, Bounded c) :
    Bounded (.app f args m) := by
  intro ctx n
  have source : (Expr.app f args m).size = 1 + (f.size + sizes args) := size_eq _
  obtain ⟨hf, hargs⟩ := List.forall_mem_cons.mp h
  by_cases isOp : ∃ o i, f = .op o i
  · obtain ⟨o, i, rfl⟩ := isOp
    have one : (Expr.op o i).size = 1 := rfl
    refine opCall_lifts (fun higher length => ?_) fun _ => ?_
    · have some_args : 2 ≤ o.arity := by cases o <;> first | decide | cases higher
      refine .bind (liftAll_size hargs) fun outs k _ houts => ?_
      exact listCall_size.imp fun out _ _ hout => by omega
    · refine .bind (liftAll_size hargs) fun outs k _ houts => .supply ?_
      exact (mapAll_size o).imp fun out _ _ hout => by omega
  · refine call_lifts (fun o i eq => isOp ⟨o, i, eq⟩) ?_ (fun _ => ?_) fun _ => ?_
    · rintro v i b struct fields k rfl _ _ rfl
      have one : (Expr.var v i).size = 1 := rfl
      have arg : (Expr.record struct fields k).size = 1 + sizes (fields.map (·.2)) := size_eq _
      rw [sizes_cons, sizes_nil, arg] at source
      refine .bind (liftNamed_size (below _ List.mem_cons_self)) fun outs _ _ houts => .pure ?_
      rw [size_scopeCall]
      omega
    · exact (hf ctx n).imp fun out _ _ hout => by omega
    · refine .bind (hf ctx n) fun g k _ hg => ?_
      refine .bind (liftAll_size hargs) fun outs k _ houts => .supply ?_
      exact call_size.imp fun out _ _ hout => by omega

end Nodes

/-- A node of one part, lifted. -/
theorem Bounded.node {d : Expr Mark} {g : Expr Mark → LiftM (Expr Mark)} (h : Bounded d)
    (parts : e.children = [d])
    (hg : ∀ out m, Lifts m (g out) fun res _ => res.size ≤ 15 + out.size) :
    Lifts n (d.lift ctx >>= g) fun out _ => out.size + 8 ≤ 15 * e.size := by
  have source : e.size = 1 + d.size := by rw [size_eq, parts, sizes_cons, sizes_nil, Nat.add_zero]
  refine .bind (h ctx n) fun out m _ hout => (hg out m).imp fun res _ _ hres => ?_
  omega

/-- Lifting is bounded: by induction on the expression, with the size of what each form builds from
its lifted parts. -/
theorem lift_bounded (e : Expr Mark) : Bounded e := by
  induction e using Expr.inductTwo with
  | node e ih below =>
    intro ctx n
    have source := size_eq e
    cases e with
    | var v m => exact var_bounded v m ctx n
    | lam params tys body m => exact lam_bounded m (ih body List.mem_cons_self) ctx n
    | app f args m => exact app_bounded m ih (fun d hd => below d (List.mem_cons_of_mem f hd)) ctx n
    | lit l m => exact .pure (show 2 + 8 ≤ 15 by decide)
    | raise x m =>
      cases x with
      | empty => exact .pure (show 2 + 8 ≤ 15 by decide)
      | _ => exact .pure (show 1 + 8 ≤ 15 by decide)
    | op o m =>
      rw [Expr.lift]
      split
      · exact .fail
      · rename_i plain
        have arity := arity_le_two plain
        refine .supply ((operator_size o).imp fun out _ _ h => ?_)
        rw [children, sizes_nil] at source
        omega
    | location l m => exact .fail
    | rescue body x handler m =>
      obtain ⟨hb, hh⟩ : Bounded body ∧ Bounded handler := by simpa [Expr.children] using ih
      simp only [children, sizes_cons, sizes_nil] at source
      cases x with
      | empty =>
        refine .bind (hb ctx n) fun b k _ hb => .bind (hh ctx k) fun h _ _ hh => .supply ?_
        exact rescueEmpty_size.imp fun out _ _ hout => by omega
      | _ =>
        refine .bind (hb ctx n) fun b k _ hb => .bind (hh ctx k) fun h _ _ hh => .pure ?_
        rw [size_eq]
        simp only [children, sizes_cons, sizes_nil]
        omega
    | force e m =>
      exact (ih e List.mem_cons_self).node rfl fun _ _ =>
        .supply (force_size.imp fun _ _ _ h => by omega)
    | component e index size m =>
      exact (ih e List.mem_cons_self).node rfl fun _ _ =>
        .supply (component_size.imp fun _ _ _ h => by omega)
    | field e struct name m =>
      exact (ih e List.mem_cons_self).node rfl fun _ _ =>
        .supply (field_size.imp fun _ _ _ h => by omega)
    | inject enum ctor e m =>
      exact (ih e List.mem_cons_self).node rfl fun _ _ =>
        .supply (inject_size.imp fun _ _ _ h => by omega)
    | assert e m =>
      exact (ih e List.mem_cons_self).node rfl fun _ _ =>
        .supply (assert_size.imp fun _ _ _ h => by omega)
    | tuple es m =>
      refine .bind (liftAll_size ih) fun outs _ _ houts => .supply ?_
      refine tuple_size.imp fun out _ _ h => ?_
      rw [children] at source
      omega
    | array es m =>
      refine .bind (liftAll_size ih) fun outs _ _ houts => .supply ?_
      refine array_size.imp fun out _ _ h => ?_
      rw [children] at source
      omega
    | record struct fields m =>
      refine .bind (liftNamed_size ih) fun outs _ _ houts => .supply ?_
      refine record_size.imp fun out _ _ h => ?_
      rw [children] at source
      omega
    | ite cond yes no m =>
      obtain ⟨hc, hy, hn⟩ : Bounded cond ∧ Bounded yes ∧ Bounded no := by
        simpa [Expr.children] using ih
      simp only [children, sizes_cons, sizes_nil] at source
      refine .bind (hc ctx n) fun c k _ hc => .bind (hy ctx k) fun y k _ hy => ?_
      refine .bind (hn ctx k) fun no _ _ hn => .supply ?_
      exact ite_size.imp fun out _ _ hout => by omega
    | default exceptions just cons m =>
      obtain ⟨hes, hj, hc⟩ : (∀ e ∈ exceptions, Bounded e) ∧ Bounded just ∧ Bounded cons := by
        simpa [Expr.children, or_imp, forall_and] using ih
      simp only [children, sizes_append, sizes_cons, sizes_nil] at source
      refine .bind (liftAll_size hes) fun es k _ hes => .bind (hj ctx k) fun j k _ hj => ?_
      refine .bind (hc ctx k) fun c _ _ hc => .supply ?_
      exact default_size.imp fun out _ _ hout => by omega
    | switch e enum cases m =>
      obtain ⟨he, _⟩ := List.forall_mem_cons.mp ih
      obtain ⟨_, bodies⟩ := List.forall_mem_cons.mp below
      simp only [children, sizes_cons] at source
      refine .bind (he ctx n) fun e k _ he => ?_
      refine .bind (liftCases_size bodies) fun outs k _ houts => .supply ?_
      exact switch_size.imp fun out _ _ hout => by omega

/-- Lifting makes an expression at most fifteen times as large. -/
theorem lifted_size_le (ctx : Ctx) (e out : Expr Mark) (n m : Nat)
    (lifted : e.lift ctx n = (.ok out, m)) : out.size ≤ 15 * e.size := by
  have bound := (lift_bounded e ctx n out m lifted).2
  dsimp only at bound
  omega

section Example

/-- A sum that starts from another sum. -/
def sumOfSum : Expr Mark :=
  let m : Mark := .blank
  let sum (init : Expr Mark) : Expr Mark :=
    .app (.op .fold m) [.op (.add .int) m, init, .array [.lit (.int 1) m] m] m
  sum (sum (.lit (.int 0) m))

theorem sumOfSum_size_le : ∃ out m, sumOfSum.lift ∅ 0 = (.ok out, m) ∧ sumOfSum.size = 11 ∧
    out.size = 98 ∧ out.size ≤ 15 * sumOfSum.size := by
  have found : (sumOfSum.lift ∅ 0).1.toOption.any (fun out => decide (out.size = 98)) = true := by
    decide +kernel
  obtain ⟨out, m, lifted, size⟩ := exists_run found
  exact ⟨out, m, lifted, by decide, of_decide_eq_true size,
    lifted_size_le ∅ sumOfSum out 0 m lifted⟩

end Example

end Lift

end Ordinance
