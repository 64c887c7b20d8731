import Ordinance.Proofs.Expr.Basic
import Ordinance.Proofs.Lift.Run

namespace Ordinance

/-- A match without its parts. -/
structure Switch where
  span : Span
  enum : String
  cases : List String
deriving DecidableEq

/-- The match takes an option apart and has a case for each of its two forms. -/
def Switch.IsOption (s : Switch) : Prop :=
  s.enum = Optional.enum ∧ s.cases = [Optional.absent, Optional.present]

namespace Expr

variable {μ : Type}

/-- The expression and all that it is made of. -/
def subterms (e : Expr μ) : List (Expr μ) := e.fold fun e below => e :: below.flatten

theorem subterms_eq (e : Expr μ) : e.subterms = e :: e.children.flatMap subterms := by
  rw [subterms, fold_eq]
  rfl

def spans (e : Expr Mark) : List Span := e.subterms.map (·.mark.span)

theorem spans_eq (e : Expr Mark) : e.spans = e.mark.span :: e.children.flatMap spans := by
  rw [spans, subterms_eq, List.map_cons, List.map_flatMap]
  rfl

/-- The node itself, if it is a match. -/
def switch? : Expr Mark → Option Switch
  | switch _ enum cases m => some ⟨m.span, enum, cases.map (·.1)⟩
  | _ => none

def switches (e : Expr Mark) : List Switch := e.subterms.filterMap switch?

theorem switches_eq (e : Expr Mark) :
    e.switches = e.switch?.toList ++ e.children.flatMap switches := by
  rw [switches, subterms_eq, List.filterMap_cons, List.filterMap_flatMap]
  cases e.switch? <;> rfl

/-- Lifted code has no default, no forced value and no location, and the empty value is not an
exception in it. -/
def Head.isPlain : Head → Bool
  | .default _ | .force | .location _ | .raise .empty | .rescue .empty => false
  | _ => true

/-- The operator that decides between the exceptions of a default. -/
def isHandler : Expr μ → Bool
  | op .resolveDefault _ => true
  | _ => false

/-- A function of the unit value. -/
def isThunk : Expr μ → Bool
  | lam [_] [.base .unit] _ _ => true
  | _ => false

/-- The parts of the node but the function of a call. -/
def operands : Expr μ → List (Expr μ)
  | app _ args _ => args
  | e => e.children

theorem operands_subset (e : Expr μ) : e.operands ⊆ e.children := by
  cases e with
  | app f args m => exact List.subset_cons_self f args
  | _ => exact List.Subset.refl _

/-- A node as lifted code has them. It has no type, and the handler of defaults is not a part of it
unless it is called, on the exceptions and on two functions that delay the rest. -/
structure Plain (e : Expr Mark) : Prop where
  untyped : e.mark.ty = .any
  head : e.head.isPlain = true
  operand : ∀ d ∈ e.operands, d.isHandler = false
  called : ∀ f args m, e = .app f args m → f.isHandler = true →
    ∃ exceptions just cons, args = [exceptions, just, cons] ∧ just.isThunk = true ∧
      cons.isThunk = true

/-- All nodes are as lifted code has them, and the expression is not the handler of defaults. -/
structure Lowered (e : Expr Mark) : Prop where
  plain : ∀ d ∈ e.subterms, d.Plain
  notHandler : e.isHandler = false

theorem forall_mem_subterms {P : Expr μ → Prop} {e : Expr μ} :
    (∀ d ∈ e.subterms, P d) ↔ P e ∧ ∀ c ∈ e.children, ∀ d ∈ c.subterms, P d := by
  rw [subterms_eq, List.forall_mem_cons, List.forall_mem_flatMap]

theorem Lowered.node {e : Expr Mark} (untyped : e.mark.ty = .any) (head : e.head.isPlain = true)
    (notHandler : e.isHandler = false) (parts : ∀ d ∈ e.children, d.Lowered) : e.Lowered where
  plain := by
    refine forall_mem_subterms.mpr ⟨⟨untyped, head, ?_, ?_⟩, fun c hc => (parts c hc).plain⟩
    · intro d hd
      exact (parts d (operands_subset e hd)).notHandler
    · rintro f args m rfl handler
      have := (parts f List.mem_cons_self).notHandler
      simp [handler] at this
  notHandler := notHandler

/-- The handler may stand where it is called. -/
theorem Lowered.handled {m k : Mark} {exceptions just cons : Expr Mark} (hm : m.ty = .any)
    (hk : k.ty = .any) (hj : just.isThunk = true) (hc : cons.isThunk = true)
    (args : ∀ d ∈ [exceptions, just, cons], d.Lowered) :
    (app (.op .resolveDefault m) [exceptions, just, cons] k).Lowered where
  plain := by
    refine forall_mem_subterms.mpr ⟨⟨hk, rfl, fun d hd => (args d hd).notHandler, ?_⟩, ?_⟩
    · rintro f args k ⟨⟩ _
      exact ⟨exceptions, just, cons, rfl, hj, hc⟩
    · refine List.forall_mem_cons.mpr ⟨?_, fun d hd => (args d hd).plain⟩
      refine forall_mem_subterms.mpr ⟨⟨hm, rfl, by simp [operands, children], ?_⟩, ?_⟩
      · rintro f args k ⟨⟩
      · simp [children]
  notHandler := rfl

end Expr

namespace Lift

/-- Matches on options that were added in two places were all added in one. -/
theorem exists_options {xs xs' ys ys' all zs : List Switch}
    (h : ∃ added, (∀ s ∈ added, Switch.IsOption s) ∧ ys.Perm (xs ++ added))
    (h' : ∃ added, (∀ s ∈ added, Switch.IsOption s) ∧ ys'.Perm (xs' ++ added))
    (count : ∀ s, all.count s + xs.count s + xs'.count s =
      zs.count s + ys.count s + ys'.count s) :
    ∃ added, (∀ s ∈ added, Switch.IsOption s) ∧ all.Perm (zs ++ added) := by
  obtain ⟨added, option, perm⟩ := h
  obtain ⟨added', option', perm'⟩ := h'
  refine ⟨added ++ added', List.forall_mem_append.mpr ⟨option, option'⟩, ?_⟩
  rw [List.perm_iff_count] at *
  intro s
  have left := perm s
  have right := perm' s
  have total := count s
  simp only [List.count_append] at *
  omega

/-- The expressions are made of `parts` for code that stands at `span`: they are as lifted code is
if the parts are, and their matches are `own`, those of the parts, and matches on options. -/
structure Emits (span : Span) (own : List Switch) (parts outs : List (Expr Mark)) : Prop where
  lowered : (∀ d ∈ parts, d.Lowered) → ∀ d ∈ outs, d.Lowered
  spans : outs.flatMap Expr.spans ⊆ span :: parts.flatMap Expr.spans
  switches : ∃ added, (∀ s ∈ added, Switch.IsOption s) ∧
    (outs.flatMap Expr.switches).Perm (own ++ parts.flatMap Expr.switches ++ added)

namespace Emits

variable {span : Span} {own own' : List Switch} {parts parts' outs outs' : List (Expr Mark)}
  {e body : Expr Mark}

theorem same (span : Span) (es : List (Expr Mark)) : Emits span [] es es where
  lowered := id
  spans := List.subset_cons_self _ _
  switches := ⟨[], by simp, by simp⟩

theorem perm (h : Emits span own parts outs) (hp : parts.Perm parts') :
    Emits span own parts' outs where
  lowered := fun lowered => h.lowered fun d hd => lowered d (hp.subset hd)
  spans := List.Subset.trans h.spans (List.cons_subset_cons _ (hp.flatMap_right _).subset)
  switches := by
    obtain ⟨added, option, perm⟩ := h.switches
    refine ⟨added, option, perm.trans ?_⟩
    exact ((hp.flatMap_right _).append_left own).append_right added

theorem append (h : Emits span own parts outs) (h' : Emits span own' parts' outs') :
    Emits span (own ++ own') (parts ++ parts') (outs ++ outs') where
  lowered := fun lowered => by
    obtain ⟨left, right⟩ := List.forall_mem_append.mp lowered
    exact List.forall_mem_append.mpr ⟨h.lowered left, h'.lowered right⟩
  spans := by
    intro x hx
    have left := @h.spans x
    have right := @h'.spans x
    simp only [List.flatMap_append, List.mem_append, List.mem_cons] at *
    tauto
  switches := exists_options h.switches h'.switches fun s => by
    simp only [List.flatMap_append, List.count_append]
    omega

/-- Expressions that are made of others, which were made before. -/
theorem trans {es : List (Expr Mark)} (h : Emits span own parts es)
    (h' : Emits span own' es outs) : Emits span (own ++ own') parts outs where
  lowered := fun lowered => h'.lowered (h.lowered lowered)
  spans := by
    intro x hx
    rcases List.mem_cons.mp (h'.spans hx) with rfl | hx
    · exact List.mem_cons_self
    · exact h.spans hx
  switches := exists_options h.switches h'.switches fun s => by
    simp only [List.count_append]
    omega

/-- A node adds itself, if it is a match, to what its parts are made of. -/
theorem node_of_switch (mark : e.mark = .erased span) (head : e.head.isPlain = true)
    (notHandler : e.isHandler = false) (here : e.switch?.toList = own')
    (h : Emits span own parts e.children) : Emits span (own' ++ own) parts [e] where
  lowered := fun lowered => by
    have untyped : e.mark.ty = .any := congrArg Mark.ty mark
    exact List.forall_mem_singleton.mpr (.node untyped head notHandler (h.lowered lowered))
  spans := by
    rw [List.flatMap_singleton, Expr.spans_eq, mark]
    exact List.cons_subset.mpr ⟨List.mem_cons_self, h.spans⟩
  switches := by
    obtain ⟨added, option, perm⟩ := h.switches
    refine ⟨added, option, ?_⟩
    rw [List.flatMap_singleton, Expr.switches_eq, here, List.append_assoc, List.append_assoc]
    exact (perm.trans (.of_eq (List.append_assoc _ _ _))).append_left _

theorem node (mark : e.mark = .erased span) (head : e.head.isPlain = true)
    (notHandler : e.isHandler = false) (none : e.switch?.toList = [])
    (h : Emits span own parts e.children) : Emits span own parts [e] :=
  node_of_switch mark head notHandler none h

/-- Matches on options need not be told apart from those that are added. -/
theorem options (h : Emits span (own' ++ own) parts outs) (option : ∀ s ∈ own', s.IsOption) :
    Emits span own parts outs where
  lowered := h.lowered
  spans := h.spans
  switches := exists_options h.switches ⟨own', option, .refl ([] ++ own')⟩ fun s => by
    simp only [List.count_append, List.count_nil]
    omega

theorem ref (x : Var) : Emits span [] [] [ref x span] :=
  node rfl rfl rfl rfl (same span [])

theorem refs (xs : List Var) : Emits span [] [] (refs xs span) := by
  induction xs with
  | nil => exact same span []
  | cons x xs ih => exact (ref x).append ih

theorem wrap (h : Emits span own parts [e]) : Emits span own parts [wrap e span] :=
  node rfl rfl rfl rfl h

theorem wrapped (xs : List Var) :
    Emits span [] [] (xs.map fun x => Lift.wrap (Lift.ref x span) span) := by
  induction xs with
  | nil => exact same span []
  | cons x xs ih => exact (wrap (ref x)).append ih

theorem nothing : Emits span [] [] [nothing span] := by
  have unit : Emits span [] [] [.lit .unit (.erased span)] := node rfl rfl rfl rfl (same span [])
  exact node rfl rfl rfl rfl unit

theorem apply {f : Expr Mark} {args : List (Expr Mark)} (h : Emits span own parts (f :: args)) :
    Emits span own parts [apply f args span] :=
  node rfl rfl rfl rfl h

theorem lambda {xs : List Var} {tys : List Ty} (h : Emits span own parts [body]) :
    Emits span own parts [lambda xs tys body span] :=
  node rfl rfl rfl rfl h

theorem op {o : Op} (h : o ≠ .resolveDefault) : Emits span [] [] [.op o (.erased span)] := by
  refine node rfl rfl ?_ rfl (same span [])
  cases o <;> first | rfl | exact absurd rfl h

end Emits

section Runs

variable {n : Nat} {span : Span} {own : List Switch} {parts rest : List (Expr Mark)}
  {arg body ifAbsent ifPresent : Expr Mark} {args : List (Expr Mark)} {x : Var}

theorem thunk_emits (h : Emits span own parts [body]) :
    Draws n (thunk body span) fun out _ => Emits span own parts [out] ∧ out.isThunk = true :=
  .bind (.fresh "_") fun _ _ _ _ => .pure ⟨.lambda h, rfl⟩

/-- The one form that adds a match. -/
theorem inspect_emits (absent : Emits span [] parts [ifAbsent])
    (present : Emits span own rest [ifPresent]) :
    Draws n (inspect arg ifAbsent x ifPresent span) fun out _ =>
      Emits span own (arg :: (parts ++ rest)) [out] := by
  refine .bind (thunk_emits absent) fun f _ _ hf => .pure ?_
  have cases : Emits span own (arg :: (parts ++ rest))
      [arg, f, lambda [x] [.any] ifPresent span] :=
    (Emits.same span [arg]).append (hf.1.append (.lambda present))
  refine .options (.node_of_switch rfl rfl rfl rfl cases) fun s hs => ?_
  rw [List.mem_singleton.mp hs]
  exact ⟨rfl, rfl⟩

theorem bind_emits (h : Emits span own rest [body]) :
    Draws n (bind x arg body span) fun out _ => Emits span own (arg :: rest) [out] :=
  inspect_emits .nothing h

theorem bindFresh_emits {g : Var → Supply (Expr Mark)}
    (hg : ∀ x n, Draws n (g x) fun body _ => Emits span own rest [body]) :
    Draws n (bindFresh arg g span) fun out _ => Emits span own (arg :: rest) [out] :=
  .bind (.fresh "x") fun x m _ _ => .bind (hg x m) fun _ _ _ hbody => bind_emits hbody

theorem bindEach_emits {xs : List Var} (length : xs.length = args.length)
    (h : Emits span own rest [body]) :
    Draws n (bindEach body span (xs.zip args)) fun out _ => Emits span own (args ++ rest) [out] := by
  induction args generalizing xs n with
  | nil =>
    obtain rfl := List.length_eq_zero_iff.mp length
    exact .pure h
  | cons arg args ih =>
    obtain ⟨x, xs, rfl⟩ := List.exists_cons_of_length_eq_add_one length
    exact .bind (ih (Nat.succ.inj length)) fun _ _ _ hbody => bind_emits hbody

/-- The body refers to the new variables only. -/
theorem bindAll_emits {g : List Var → Expr Mark}
    (hg : ∀ xs, xs.length = args.length → Emits span [] [] [g xs]) :
    Draws n (bindAll args (fun xs => (return g xs : Supply (Expr Mark))) span) fun out _ =>
      Emits span [] args [out] := by
  refine .bind (.freshMany "x" args.length) fun xs _ _ hxs => ?_
  refine (bindEach_emits hxs.1 (hg xs hxs.1)).imp fun out _ _ hout => ?_
  rwa [List.append_nil] at hout

theorem applyAll_emits (f : Var) :
    Draws n (applyAll (ref f span) args span) fun out _ => Emits span [] args [out] :=
  bindAll_emits fun xs _ => .apply ((Emits.ref f).append (.refs xs))

theorem mapAll_emits {o : Op} (h : o ≠ .resolveDefault) :
    Draws n (mapAll (.op o (.erased span)) args span) fun out _ => Emits span [] args [out] :=
  bindAll_emits fun xs _ => .wrap (.apply ((Emits.op h).append (.refs xs)))

theorem unwrap_emits : Draws n (unwrap arg span) fun out _ => Emits span [] [arg] [out] := by
  have raised : Emits span [] [] [.raise .noValue (.erased span)] :=
    .node rfl rfl rfl rfl (.same span [])
  exact .bind (.fresh "x") fun x _ _ _ => inspect_emits raised (.ref x)

end Runs

section Forms

variable {n : Nat} {span : Span} {e f xs : Expr Mark} {es : List (Expr Mark)}

theorem rescueEmpty_emits {body handler : Expr Mark} :
    Draws n (rescueEmpty body handler span) fun out _ => Emits span [] [body, handler] [out] :=
  .bind (.fresh "x") fun x _ _ _ => inspect_emits (.same span [handler]) (.wrap (.ref x))

theorem force_emits : Draws n (force e span) fun out _ => Emits span [] [e] [out] :=
  .bind unwrap_emits fun _ _ _ h => .pure h.wrap

theorem handled_emits {just cons : Expr Mark} (hj : just.isThunk = true) (hc : cons.isThunk = true) :
    Emits span [] [e, just, cons]
      [apply (.op .resolveDefault (.erased span)) [e, just, cons] span] where
  lowered := fun lowered => List.forall_mem_singleton.mpr (.handled rfl rfl hj hc lowered)
  spans := by
    simp [apply, Expr.spans_eq (.app _ _ _), Expr.spans_eq (.op _ _), Expr.children, Expr.mark,
      Mark.erased]
  switches := by
    refine ⟨[], by simp, ?_⟩
    simp [apply, Expr.switches_eq (.app _ _ _), Expr.switches_eq (.op _ _), Expr.children,
      Expr.switch?]

theorem default_emits {just cons : Expr Mark} :
    Draws n (default es just cons span) fun out _ => Emits span [] (es ++ [just, cons]) [out] := by
  refine .bind (thunk_emits (.same span [just])) fun j _ _ hj => ?_
  refine .bind (thunk_emits (.same span [cons])) fun c _ _ hc => .pure ?_
  have array : Emits span [] es [.array es (.erased span)] :=
    .node rfl rfl rfl rfl (.same span es)
  exact (array.append (hj.1.append hc.1)).trans (handled_emits hj.2 hc.2)

theorem tuple_emits : Draws n (tuple es span) fun out _ => Emits span [] es [out] :=
  bindAll_emits fun xs _ => .wrap (.node rfl rfl rfl rfl (.refs xs))

theorem array_emits : Draws n (array es span) fun out _ => Emits span [] es [out] :=
  bindAll_emits fun xs _ => .wrap (.node rfl rfl rfl rfl (.wrapped xs))

theorem record_emits {struct : String} {fields : List (String × Expr Mark)} :
    Draws n (record struct fields span) fun out _ =>
      Emits span [] (fields.map (·.2)) [out] := by
  refine bindAll_emits fun xs length => .wrap (.node rfl rfl rfl rfl ?_)
  have length : (xs.map fun x => wrap (ref x span) span).length ≤ (fields.map (·.1)).length := by
    simp [length]
  have values : Emits span [] [] (xs.map fun x => wrap (ref x span) span) := .wrapped xs
  rwa [← List.map_snd_zip length] at values

/-- The forms that bind one variable to the payload of the first part. -/
theorem bindFresh_emits_of_node {own : List Switch} {g : Var → Expr Mark}
    (hg : ∀ x, Emits span own es [g x]) :
    Draws n (bindFresh e (fun x => (return g x : Supply (Expr Mark))) span) fun out _ =>
      Emits span own (e :: es) [out] :=
  bindFresh_emits fun x _ => .pure (hg x)

theorem component_emits {index size : Nat} :
    Draws n (component e index size span) fun out _ => Emits span [] [e] [out] :=
  bindFresh_emits_of_node fun x => .wrap (.node rfl rfl rfl rfl (.ref x))

theorem field_emits {struct name : String} :
    Draws n (field e struct name span) fun out _ => Emits span [] [e] [out] :=
  bindFresh_emits_of_node fun x => .node rfl rfl rfl rfl (.ref x)

theorem inject_emits {enum ctor : String} :
    Draws n (inject enum ctor e span) fun out _ => Emits span [] [e] [out] :=
  bindFresh_emits_of_node fun x => .wrap (.node rfl rfl rfl rfl (.ref x))

theorem assert_emits : Draws n (assert e span) fun out _ => Emits span [] [e] [out] :=
  bindFresh_emits_of_node fun x => .wrap (.node rfl rfl rfl rfl (.ref x))

theorem switch_emits {enum : String} {cases : List (String × Expr Mark)} :
    Draws n (switch e enum cases span) fun out _ =>
      Emits span [⟨span, enum, cases.map (·.1)⟩] (e :: cases.map (·.2)) [out] := by
  refine bindFresh_emits_of_node fun x => ?_
  have parts : Emits span [] (cases.map (·.2)) (ref x span :: cases.map (·.2)) :=
    (Emits.ref x).append (.same span _)
  have here : (Expr.switch (ref x span) enum cases (.erased span)).switch?.toList =
    [⟨span, enum, cases.map (·.1)⟩] := rfl
  exact .node_of_switch rfl rfl rfl here parts

theorem ite_emits {yes no : Expr Mark} :
    Draws n (ite e yes no span) fun out _ => Emits span [] [e, yes, no] [out] :=
  bindFresh_emits_of_node fun x => .node rfl rfl rfl rfl ((Emits.ref x).append (.same span [yes, no]))

theorem operator_emits {o : Op} (h : o ≠ .resolveDefault) :
    Draws n (operator o span) fun out _ => Emits span [] [] [out] :=
  .bind (.freshMany "x" o.arity) fun xs _ _ _ =>
    .pure (.wrap (.lambda (.wrap (.apply ((Emits.op h).append (.refs xs))))))

theorem call_emits : Draws n (call f es span) fun out _ => Emits span [] (f :: es) [out] :=
  bindFresh_emits fun g _ => applyAll_emits g

theorem scopeCall_emits {target : Var} {struct : String} {fields : List (String × Expr Mark)}
    {argSpan : Span} :
    Emits span [] [.record struct fields (.erased argSpan)]
      [scopeCall target struct fields argSpan span] :=
  .wrap (.apply ((Emits.ref target).append (.same span _)))

theorem onElement_emits (f x : Var) :
    Draws n (onElement f x span) fun out _ => Emits span [] [] [out] := by
  have emitted : Draws n (onElement f x span) fun out _ => Emits span [] [ref x span] [out] :=
    bindFresh_emits_of_node fun y => .apply ((Emits.ref f).append (.ref y))
  exact emitted.imp fun _ _ _ h => (Emits.ref x).trans h

theorem map_emits : Draws n (map f xs span) fun out _ => Emits span [] [f, xs] [out] := by
  refine bindFresh_emits fun f _ => bindFresh_emits fun xs _ => ?_
  refine .bind (.fresh "x") fun x _ _ _ => .bind (onElement_emits f x) fun body _ _ hbody => ?_
  exact .pure (.wrap (.apply ((Emits.op (by decide)).append ((Emits.lambda hbody).append (.ref xs)))))

theorem filter_emits : Draws n (filter f xs span) fun out _ => Emits span [] [f, xs] [out] := by
  refine bindFresh_emits fun f _ => bindFresh_emits fun xs _ => ?_
  refine .bind (.fresh "x") fun x _ _ _ => .bind (onElement_emits f x) fun test _ _ htest => ?_
  refine .bind unwrap_emits fun body _ _ hbody => .pure (.wrap (.apply ?_))
  exact (Emits.op (by decide)).append ((Emits.lambda (htest.trans hbody)).append (.ref xs))

theorem foldWith_emits {o : Op} {init : Expr Mark} (h : o ≠ .resolveDefault) :
    Draws n (foldWith o f init xs span) fun out _ => Emits span [] [f, xs, init] [out] := by
  refine bindFresh_emits fun f _ => bindFresh_emits fun xs _ => ?_
  refine .bind (.fresh "acc") fun acc _ _ _ => .bind (.fresh "x") fun x _ _ _ => ?_
  refine .bind (applyAll_emits f) fun body _ _ hbody => .pure (.apply ?_)
  have step : Emits span [] [] [lambda [acc, x] [.any, .any] body span] :=
    .lambda ((Emits.refs [acc, x]).trans hbody)
  exact (Emits.op h).append (step.append ((Emits.same span [init]).append (.ref xs)))

theorem listCall_emits {o : Op} :
    Lifts n (listCall o es span) fun out _ => Emits span [] es [out] := by
  have swap {f init xs out : Expr Mark} (h : Emits span [] [f, xs, init] [out]) :
      Emits span [] [f, init, xs] [out] := h.perm ((List.Perm.swap _ _ []).cons _)
  unfold listCall
  split
  · exact .supply map_emits
  · exact .supply filter_emits
  · exact .supply ((foldWith_emits (by decide)).imp fun _ _ _ h => swap h)
  · exact .supply ((foldWith_emits (by decide)).imp fun _ _ _ h => swap h)
  · exact .fail

end Forms

end Lift

end Ordinance
