import Ordinance.Proofs.Lift.Typing.Rules

namespace Ordinance

open Typing

section Declarations

variable {decls : Decls} {enum struct : String} {layout : Layout} {t : Ty} {ts : List Ty}
  {names : List String} {payloads : List Ty}

theorem Ty.AdmitsAll.image_eq {us : List Ty} (concrete : ∀ t ∈ us, t.isConcrete = true)
    (h : Ty.AdmitsAll us ts) : ts.map Ty.image = us.map Ty.lift := by
  rw [← h.eq_of_concrete concrete]
  exact List.map_congr_left fun t ht => Ty.image_of_isConcrete (concrete t ht)

theorem Decls.structs_lift (known : decls.structs.get? struct = some layout) :
    decls.lift.structs.get? struct = some (layout.mapValues fun t => .option t.lift) := by
  simp [Decls.lift, known]

theorem Decls.enums_lift (ne : enum ≠ Optional.enum) (known : decls.enums.get? enum = some layout) :
    decls.lift.enums.get? enum = some (layout.mapValues Ty.lift) := by
  simp [Decls.lift, known, ne]

/-- The lifted values of an enum are those of the lifted enum. -/
theorem Typing.Enumerates.image (concrete : decls.Concrete)
    (h : Enumerates decls enum t names payloads) :
    Enumerates decls.lift enum t.image names (payloads.map .image) := by
  cases h with
  | optional t => exact .optional t.image
  | @declared _ layout payloads ne known admits =>
    rw [← Dict.keys_mapValues Ty.lift layout]
    refine .declared ne (Decls.enums_lift ne known) ?_
    rw [admits.image_eq (concrete.2 _ _ known), Dict.values_mapValues]
    exact .refl _

end Declarations

namespace Lift

variable {decls : Decls} {env env' : Env} {Γ : Dict Var Ty} {ctx : Ctx} {n : Nat} {m : Mark}
  {t : Ty}

/-- Every lifted form of the expression is of the lifted type, where the variables are as its
context says. -/
def Preserves (decls : Decls) (env env' : Env) (e : Expr Mark) : Prop :=
  ∀ ⦃Γ t ctx n⦄, HasTy Eq decls env Γ e t → e.thunksForced = true → Ready env Γ ctx n e.binders →
    LiftsTo decls.lift env' (ctx.known env Γ) ctx n e t.image

theorem LiftsTo.var {v : Var} (hv : VarTy env Γ v t) :
    LiftsTo decls env' (ctx.known env Γ) ctx n (.var v m) t.image := by
  intro k _
  refine .bind (lookup_lifts v m.span) fun b k' _ found => ?_
  have known : ctx.known env Γ b.target (b.mode.image t) := ⟨v, b, t, found.2, hv, rfl, rfl⟩
  cases mode : b.mode <;> rw [mode] at known
  · exact .pure (.wrap (.ref known))
  · exact .pure (.ref known)
  · exact .fail

section Functions

variable {params : List Var} {tys : List Ty} {body : Expr Mark}

/-- A delayed value is lifted to the lifted value, since its parameter cannot be used. -/
theorem preserves_thunk (ih : Preserves decls env env' body) {v : Var}
    (typed : HasTy Eq decls env (Γ.insert v .unit) body t) (forced : body.thunksForced = true)
    (ready : Ready env Γ ctx n (v :: body.binders)) :
    LiftsTo decls.lift env' (ctx.known env Γ) ctx n (.lam [v] [.unit] body m) t.image := by
  obtain ⟨inner, known⟩ := ready.skip binds_insert
  exact (ih typed forced inner).weaken known

theorem preserves_lam (ih : Preserves decls env env' body) (h : tys ≠ [.unit])
    (count : params.length = tys.length)
    (typed : HasTy Eq decls env (Γ.insertMany (params.zip tys)) body t)
    (forced : body.thunksForced = true) (ready : Ready env Γ ctx n (params ++ body.binders)) :
    LiftsTo decls.lift env' (ctx.known env Γ) ctx n (.lam params tys body m)
      (.arrow (tys.map .image) (.option t.image)) := by
  intro k le
  have notUnit (v : Var) (rest : List Ty) : ¬ (params = [v] ∧ tys = .unit :: rest) := by
    rintro ⟨rfl, rfl⟩
    obtain rfl : rest = [] := by simpa using count
    exact h rfl
  rw [lift_lam notUnit]
  refine .bind (.supply (bindParams_ready (ready.mono le) count)) fun r k' le' hr => ?_
  obtain ⟨⟨length, nodup, bounds⟩, inner, known⟩ := hr
  refine .bind (ih typed forced inner (Nat.le_refl _)) fun out _ _ hout => .pure ?_
  have fresh : ∀ x ∈ r.2, (ctx.known env Γ).Fresh x := fun x hx =>
    ready.known_below.fresh (Nat.le_trans le (bounds x hx).1)
  refine .wrap (.lambda fresh nodup (by simpa using length) ?_ (hout.mono known))
  rw [Ty.liftAll_eq_map, List.forall₂_map_left_iff, List.forall₂_map_right_iff]
  exact List.forall₂_same.mpr fun t _ => t.lift_admits_image

/-- A case that is lifted is a function of one variable. -/
theorem liftCases_typed {cases : List (String × Expr Mark)} {payloads : List Ty} {k : Nat}
    (ih : ∀ c ∈ cases.map (·.2), ∀ b ∈ c.children, Preserves decls env env' b)
    (typed : List.Forall₂ (fun c p => HasTy Eq decls env Γ c (.arrow [p] t)) (cases.map (·.2))
      payloads)
    (forced : ∀ c ∈ cases.map (·.2), c.thunksForced = true)
    (ready : ∀ c ∈ cases.map (·.2), Ready env Γ ctx n c.binders)
    (below : (ctx.known env Γ).Below n) (le : n ≤ k) :
    Lifts k (Expr.liftCases ctx cases) fun outs _ => outs.map (·.1) = cases.map (·.1) ∧
      List.Forall₂ (fun out p => Typed decls.lift env' (ctx.known env Γ) out
        (.arrow [p] (.option t.image))) (outs.map (·.2)) (payloads.map .image) := by
  induction cases generalizing k payloads with
  | nil =>
    cases typed
    exact .pure ⟨rfl, .nil⟩
  | cons x cases ih' =>
    obtain ⟨p, payloads, hc, rest, rfl⟩ := List.forall₂_cons_left_iff.mp typed
    obtain ⟨ihc, ihs⟩ := List.forall_mem_cons.mp ih
    obtain ⟨forced, forceds⟩ := List.forall_mem_cons.mp forced
    obtain ⟨ready, readys⟩ := List.forall_mem_cons.mp ready
    obtain ⟨name, c⟩ := x
    cases c with
    | lam vs tys body m =>
      cases hc with
      | lam count binders inside _ =>
        obtain rfl : tys = [p] := by simpa using binders
        obtain ⟨v, rfl⟩ := List.length_eq_one_iff.mp count
        have ready : Ready env Γ ctx n (v :: body.binders) := by
          simpa [Expr.binders_eq, Expr.params, Expr.children] using ready
        have forced : body.thunksForced = true :=
          (Expr.thunksForced_iff.mp forced).2 body List.mem_cons_self
        refine .bind (.supply (bind_ready (ready.mono le) (binds_insert (t := p)) (by simp)))
          fun r k' le' hr => ?_
        obtain ⟨low, _, inner, known⟩ := hr
        refine .bind (ihc body List.mem_cons_self inside forced inner (Nat.le_refl _))
          fun out k'' le'' hout => ?_
        refine .bind (ih' ihs rest forceds readys (Nat.le_trans le (Nat.le_trans le' le'')))
          fun outs _ _ houts => .pure ?_
        refine ⟨congrArg (name :: ·) houts.1, .cons ?_ houts.2⟩
        exact .lambda_one (below.fresh (Nat.le_trans le low)) (.cons p.lift_admits_image .nil)
          (hout.mono known)
    | _ => exact .fail

end Functions

section Calls

variable {f : Expr Mark} {args : List (Expr Mark)} {ts : List Ty}

/-- The fields of a record in the lifted declarations. -/
theorem values_lift {layout : Layout} (concrete : ∀ t ∈ layout.values, t.isConcrete = true)
    (admits : Ty.AdmitsAll layout.values ts) :
    (layout.mapValues fun t => Ty.option t.lift).values = (ts.map .image).map .option := by
  rw [admits.image_eq concrete, Dict.values_mapValues, List.map_map]
  rfl

theorem lifts_parts {es : List (Expr Mark)} (typed : List.Forall₂ (HasTy Eq decls env Γ) es ts)
    (parts : ∀ d ∈ es, ∀ u, HasTy Eq decls env Γ d u →
      LiftsTo decls.lift env' (ctx.known env Γ) ctx n d u.image) :
    List.Forall₂ (LiftsTo decls.lift env' (ctx.known env Γ) ctx n) es (ts.map .image) := by
  rw [List.forall₂_map_right_iff]
  exact forall₂_imp_mem typed parts

theorem fields_typed {fields : List (String × Expr Mark)} {layout : Layout}
    (keys : fields.map (·.1) = layout.keys) (admits : Ty.AdmitsAll layout.values ts)
    (typed : ∀ x ∈ (fields.map (·.2)).zip ts, HasTy Eq decls env Γ x.1 x.2) :
    List.Forall₂ (HasTy Eq decls env Γ) (fields.map (·.2)) ts := by
  exact List.forall₂_iff_zip.mpr ⟨fields_length keys admits, fun h => typed _ h⟩

/-- The lifted values of a record, which are options, make a record of the lifted declarations. -/
theorem recordFields_typed (concrete : decls.Concrete) {struct : String}
    {fields : List (String × Expr Mark)} {k : Mark} {i : Nat} (span : Span)
    (typed : HasTy Eq decls env Γ (.record struct fields k) t)
    (parts : ∀ d ∈ fields.map (·.2), ∀ u, HasTy Eq decls env Γ d u →
      LiftsTo decls.lift env' (ctx.known env Γ) ctx n d u.image) (le : n ≤ i) :
    Lifts i (Expr.liftNamed ctx fields) fun outs _ =>
      Typed decls.lift env' (ctx.known env Γ) (.record struct outs (.erased span)) t := by
  cases typed with
  | record known keys admits typed _ =>
    have lifted := lifts_parts (fields_typed keys admits typed) parts
    refine (liftNamed_typed lifted le).imp fun outs _ _ houts => ?_
    refine .record (Decls.structs_lift known) ?_ (values_lift (concrete.1 _ _ known) admits) houts.2
    rw [houts.1, keys, Dict.keys_mapValues]

/-- A scope takes the record of options that its argument is lifted to. -/
theorem preserves_scopeCall (concrete : decls.Concrete) {bs : List Var}
    (ready : Ready env Γ ctx n bs) {v : Var} {b : Binding} {struct : String}
    {fields : List (String × Expr Mark)} {k : Mark} {i : Nat}
    (found : ctx.get? v = some b) (scope : b.mode = .scope) (hv : VarTy env Γ v (.arrow ts t))
    (typed : List.Forall₂ (HasTy Eq decls env Γ) [.record struct fields k] ts)
    (parts : ∀ d ∈ fields.map (·.2), ∀ u, HasTy Eq decls env Γ d u →
      LiftsTo decls.lift env' (ctx.known env Γ) ctx n d u.image) (le : n ≤ i) :
    Lifts i (Expr.liftNamed ctx fields >>= fun fields =>
        (pure (scopeCall b.target struct fields k.span m.span) : LiftM (Expr Mark)))
      fun out _ => Typed decls.lift env' (ctx.known env Γ) out (.option t.image) := by
  obtain ⟨input, output, eq⟩ := ready.scopes v b _ found scope hv
  obtain ⟨rfl, rfl⟩ := Ty.arrow.inj eq
  obtain ⟨hrecord, _⟩ := List.forall₂_cons.mp typed
  have target : ctx.known env Γ b.target (.arrow [.struct input] (.struct output)) :=
    ⟨v, b, _, found, hv, rfl, by rw [scope]; rfl⟩
  refine .bind (recordFields_typed concrete k.span hrecord parts le) fun outs _ _ houts => .pure ?_
  exact .wrap (.apply (.ref target) (.cons houts .nil))

theorem preserves_call (concrete : decls.Concrete) {bs : List Var} (ready : Ready env Γ ctx n bs)
    (notOp : ∀ o k, f ≠ .op o k) (typedf : HasTy Eq decls env Γ f (.arrow ts t))
    (typed : List.Forall₂ (HasTy Eq decls env Γ) args ts)
    (fits : f.mark.ty.isThunk = true → ∃ k, args = [.lit .unit k])
    (hf : LiftsTo decls.lift env' (ctx.known env Γ) ctx n f (Ty.arrow ts t).image)
    (hargs : List.Forall₂ (LiftsTo decls.lift env' (ctx.known env Γ) ctx n) args (ts.map .image))
    (parts : ∀ struct fields k, args = [.record struct fields k] → ∀ d ∈ fields.map (·.2), ∀ u,
      HasTy Eq decls env Γ d u → LiftsTo decls.lift env' (ctx.known env Γ) ctx n d u.image) :
    LiftsTo decls.lift env' (ctx.known env Γ) ctx n (.app f args m) t.image := by
  intro i le
  refine call_lifts notOp ?_ (fun forced => ?_) fun notForced => ?_
  · rintro v _ b struct fields k rfl found scope rfl
    cases typedf with
    | var hv _ =>
      exact preserves_scopeCall concrete ready found scope hv typed (parts _ _ _ rfl) le
  · obtain ⟨k, rfl⟩ := eq_of_forces forced
    obtain ⟨u, us, hu, rest, rfl⟩ := List.forall₂_cons_left_iff.mp typed
    cases hu
    cases rest
    exact hf le
  · have ne : ts ≠ [.unit] := by
      rintro rfl
      have thunk : f.mark.ty.isThunk = true := by rw [typedf.fits_mark]; rfl
      obtain ⟨k, rfl⟩ := fits thunk
      rw [forces_of_isThunk thunk] at notForced
      cases notForced
    rw [Ty.image_arrow ne] at hf
    refine hf.bind le fun g i' le hg => ?_
    refine .bind (liftAll_typed hargs le) fun outs _ le' houts => .supply ?_
    exact call_typed (ready.known_below.mono (Nat.le_trans le le')) hg houts

/-- A function that `map` or `filter` is given, which is not a delayed value. -/
theorem image_callback {u : Ty} (typed : HasTy Eq decls env Γ f (.arrow [t] u))
    (fits : f.mark.ty.isThunk = false) :
    (Ty.arrow [t] u).image = .arrow [t.image] (.option u.image) := by
  refine Ty.image_arrow fun eq => ?_
  rw [typed.fits_mark, Ty.isThunk_iff.mpr eq] at fits
  cases fits

/-- The operators that can be values take and return lifted values as they do others. -/
theorem takes_image {o : Op} (first : (o.isHigherOrder || o == .resolveDefault) = false)
    (takes : o.Takes ts t) : o.Takes (ts.map .image) t.image := by
  cases takes with
  | @plain _ params result signature count =>
    have images : (params.map Ty.base).map Ty.image = params.map Ty.base := by simp
    rw [images]
    exact .plain signature count
  | eq t => exact .eq t.image
  | ne t => exact .ne t.image
  | log e => exact .log e t.image
  | length t => exact .length (.option t.image)
  | concat t => exact .concat (.option t.image)
  | map | filter | fold | reduce | resolveDefault => cases first

theorem preserves_opCall {o : Op} {k : Mark} {bs : List Var} (ready : Ready env Γ ctx n bs)
    (takes : o.Takes ts t) (typed : List.Forall₂ (HasTy Eq decls env Γ) args ts)
    (fits : o = .map ∨ o = .filter → ∀ f ∈ args.head?, f.mark.ty.isThunk = false)
    (hargs : List.Forall₂ (LiftsTo decls.lift env' (ctx.known env Γ) ctx n) args (ts.map .image)) :
    LiftsTo decls.lift env' (ctx.known env Γ) ctx n (.app (.op o k) args m) t.image := by
  have below := ready.known_below
  cases first : o.isHigherOrder || o == .resolveDefault with
  | false => exact .call below first (takes_image first takes) hargs
  | true =>
    cases takes with
    | @plain _ params result signature _ =>
      rw [Op.isHigherOrder_of_plain signature] at first
      cases first
    | map t u =>
      match args, typed, hargs with
      | [f, xs], .cons typed _, .cons hf (.cons hxs .nil) =>
        rw [image_callback typed (fits (.inl rfl) f rfl)] at hf
        exact .map below hf hxs
    | filter t =>
      match args, typed, hargs with
      | [f, xs], .cons typed _, .cons hf (.cons hxs .nil) =>
        rw [image_callback typed (fits (.inr rfl) f rfl)] at hf
        exact .filter below hf hxs
    | fold u =>
      match args, hargs with
      | [f, init, xs], .cons hf (.cons hinit (.cons hxs .nil)) =>
        rw [Ty.image_arrow (by simp)] at hf
        exact .foldWith below (.inl rfl) hf hinit hxs
    | reduce =>
      match args, hargs with
      | [f, init, xs], .cons hf (.cons hinit (.cons hxs .nil)) =>
        rw [Ty.image_arrow (by simp)] at hf
        exact .foldWith below (.inr ⟨rfl, rfl⟩) hf hinit hxs
    | resolveDefault t => exact fun _ _ => .fail
    | eq | ne | log | length | concat => cases first

end Calls

section Nodes

variable {f e : Expr Mark} {args : List (Expr Mark)} {enum : String}
  {cases : List (String × Expr Mark)} {payloads : List Ty} {u : Ty}

theorem LiftsTo.switch (below : (ctx.known env Γ).Below n)
    (enumerates : Enumerates decls.lift enum u (cases.map (·.1)) payloads)
    (he : LiftsTo decls.lift env' (ctx.known env Γ) ctx n e u)
    (hcases : ∀ {k}, n ≤ k → Lifts k (Expr.liftCases ctx cases) fun outs _ =>
      outs.map (·.1) = cases.map (·.1) ∧
      List.Forall₂ (fun out p => Typed decls.lift env' (ctx.known env Γ) out
        (.arrow [p] (.option t))) (outs.map (·.2)) payloads) :
    LiftsTo decls.lift env' (ctx.known env Γ) ctx n (.switch e enum cases m) t := by
  intro k le
  refine he.bind le fun out k' le hout => .bind (hcases le) fun outs _ le' houts => .supply ?_
  rw [← houts.1] at enumerates
  exact switch_typed (below.mono (Nat.le_trans le le')) enumerates hout houts.2

theorem callsFit_app (notOp : ∀ o k, f ≠ .op o k) (h : (Expr.app f args m).callsFit = true)
    (thunk : f.mark.ty.isThunk = true) : ∃ k, args = [.lit .unit k] := by
  have h : (!f.mark.ty.isThunk || Expr.passesUnit args) = true := by
    cases f with
    | op o k => exact absurd rfl (notOp o k)
    | _ => exact h
  rw [thunk, Bool.not_true, Bool.false_or] at h
  unfold Expr.passesUnit at h
  split at h
  next => exact ⟨_, rfl⟩
  next => cases h

end Nodes

/-- Lifting preserves types: by induction on the expression, with the rule of each node. -/
theorem lift_preserves (concrete : decls.Concrete) (e : Expr Mark) :
    Preserves decls env env' e := by
  induction e using Expr.inductTwo with
  | node e ih ih₂ =>
    intro Γ t ctx n typed forced ready
    have below := ready.known_below
    obtain ⟨fits, forced⟩ := Expr.thunksForced_iff.mp forced
    have part (d : Expr Mark) (hd : d ∈ e.valueParts) (u : Ty) (hu : HasTy Eq decls env Γ d u) :
        LiftsTo decls.lift env' (ctx.known env Γ) ctx n d u.image :=
      ih d (Expr.valueParts_subset hd) hu (forced d hd) (ready.child (Expr.valueParts_subset hd))
    cases typed with
    | var hv _ => exact .var hv
    | lit _ => exact .lit _
    | @tuple _ es _ ts length typed _ =>
      rw [Ty.image_tuple]
      exact .tuple below (lifts_parts (List.forall₂_iff_zip.mpr ⟨length, fun h => typed _ h⟩) part)
    | component typed length found _ =>
      have he := part _ List.mem_cons_self _ typed
      rw [Ty.image_tuple] at he
      exact .component below he (by simpa using length) (by simp [found])
    | record known keys admits typed _ =>
      refine .record below (Decls.structs_lift known) ?_ (values_lift (concrete.1 _ _ known) admits)
        (lifts_parts (fields_typed keys admits typed) part)
      rw [keys, Dict.keys_mapValues]
    | @field _ e struct name _ layout u _ known found admits typed _ =>
      have concrete : u.isConcrete = true := concrete.1 _ _ known u
        (List.mem_map.mpr ⟨(name, u), Dict.mem_entries_iff.mpr found, rfl⟩)
      obtain rfl := admits.eq_of_isConcrete concrete
      refine .field below (Decls.structs_lift known) ?_ (part _ List.mem_cons_self _ typed)
      simp [found, Ty.image_of_isConcrete concrete]
    | inject enumerates mem typed _ =>
      refine .inject below (enumerates.image concrete) ?_ (part _ List.mem_cons_self _ typed)
      rw [List.zip_map_right]
      exact List.mem_map.mpr ⟨_, mem, rfl⟩
    | @switch _ e enum cases m u payloads _ enumerates typed typedCases _ =>
      have inCases {c : Expr Mark} (hc : c ∈ cases.map (·.2)) :
          c ∈ (Expr.switch e enum cases m).children := List.mem_cons_of_mem _ hc
      have length : (cases.map (·.2)).length = payloads.length := by
        simpa using enumerates.length_eq
      refine .switch below (enumerates.image concrete) (part _ List.mem_cons_self _ typed)
        (liftCases_typed (fun c hc => ih₂ c (inCases hc)) ?_ (fun c hc => forced c (inCases hc))
          (fun c hc => ready.child (inCases hc)) below)
      exact List.forall₂_iff_zip.mpr ⟨length, fun h => typedCases _ h⟩
    | @op _ o m _ ho fit =>
      obtain ⟨ts, r, rfl, takes⟩ := ho.takes
      have ne : ts ≠ [.unit] := by
        rintro rfl
        simp [Expr.callsFit, fit, Ty.isThunk] at fits
      rw [Ty.image_arrow ne]
      exact .operator below fun first => takes_image first takes
    | @app _ f args _ ts _ typedf length typed _ =>
      have typed : List.Forall₂ (HasTy Eq decls env Γ) args ts :=
        List.forall₂_iff_zip.mpr ⟨length, fun h => typed _ h⟩
      by_cases isOp : ∃ o k, f = .op o k
      · obtain ⟨o, k, rfl⟩ := isOp
        cases typedf with
        | op ho _ =>
          obtain ⟨_, _, eq, takes⟩ := ho.takes
          obtain ⟨rfl, rfl⟩ := Ty.arrow.inj eq
          refine preserves_opCall ready takes typed (fun callback f hf => ?_)
            (lifts_parts typed part)
          rcases callback with rfl | rfl <;>
            simpa [Expr.callsFit, Option.mem_def.mp hf] using fits
      · have notOp : ∀ o k, f ≠ .op o k := fun o k eq => isOp ⟨o, k, eq⟩
        rw [Expr.valueParts_app notOp] at part forced
        refine preserves_call concrete ready notOp typedf typed (callsFit_app notOp fits)
          (part f List.mem_cons_self _ typedf)
          (lifts_parts typed fun d hd => part d (List.mem_cons_of_mem f hd)) ?_
        rintro struct fields k rfl d hd u hu
        have mem : .record struct fields k ∈ [f, .record struct fields k] :=
          List.mem_cons_of_mem f List.mem_cons_self
        exact ih₂ _ mem d hd hu ((Expr.thunksForced_iff.mp (forced _ mem)).2 d hd)
          ((ready.child mem).child hd)
    | @lam _ params tys body _ ts t count binders typed _ =>
      obtain rfl : tys = ts := by rwa [List.forall₂_eq_eq_eq] at binders
      have readyb : Ready env Γ ctx n (params ++ body.binders) := by
        simpa [Expr.binders_eq, Expr.params, Expr.children] using ready
      have forcedb := forced body List.mem_cons_self
      have ihb := ih body List.mem_cons_self
      by_cases thunk : tys = [.unit]
      · subst thunk
        obtain ⟨v, rfl⟩ := List.length_eq_one_iff.mp count
        rw [Ty.image_thunk]
        exact preserves_thunk ihb typed forcedb readyb
      · rw [Ty.image_arrow thunk]
        exact preserves_lam ihb thunk count typed forcedb readyb
    | @default _ exceptions just cons m _ typed typedJust typedCons _ =>
      have mem {d : Expr Mark} (hd : d ∈ exceptions ∨ d ∈ [just, cons]) :
          d ∈ (Expr.default exceptions just cons m).children := List.mem_append.mpr hd
      exact .default below (fun d hd => part d (mem (.inl hd)) _ (typed d hd))
        (part _ (mem (.inr List.mem_cons_self)) _ typedJust)
        (part _ (mem (.inr (List.mem_cons_of_mem _ List.mem_cons_self))) _ typedCons)
    | raise _ => exact .raise _
    | rescue body handler _ =>
      exact .rescue below (part _ List.mem_cons_self _ body)
        (part _ (List.mem_cons_of_mem _ List.mem_cons_self) _ handler)
    | force typed _ => exact .force below (part _ List.mem_cons_self _ typed)
    | array typed _ => exact .array below fun d hd => part d hd _ (typed d hd)
    | ite cond yes no _ =>
      exact .ite below (part _ List.mem_cons_self _ cond)
        (part _ (List.mem_cons_of_mem _ List.mem_cons_self) _ yes)
        (part _ (List.mem_cons_of_mem _ (List.mem_cons_of_mem _ List.mem_cons_self)) _ no)
    | assert typed _ => exact .assert below (part _ List.mem_cons_self _ typed)
    | location _ _ _ => exact fun _ _ => .fail

end Lift

end Ordinance
