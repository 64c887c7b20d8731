import Ordinance.Proofs.Expr.Instance
import Ordinance.Proofs.Typing.Rules

namespace Ordinance.Typing

variable {decls : Decls} {env : Env} {Γ : Dict Var Ty} {e r : Expr Mark} {u : Ty}

/-- Trees for expressions one by one are a list of trees for the list. -/
private theorem exists_trees {α : Type} {P : Expr Mark → α → Prop} {es : List (Expr Mark)}
    {us : List α} (length : es.length = us.length)
    (h : ∀ x ∈ es.zip us, ∃ r, x.1.Admits r ∧ P r x.2) :
    ∃ rs, List.Forall₂ Expr.Admits es rs ∧ rs.length = us.length ∧ ∀ x ∈ rs.zip us, P x.1 x.2 := by
  induction es generalizing us with
  | nil =>
    cases us with
    | nil => exact ⟨[], .nil, rfl, by simp⟩
    | cons => cases length
  | cons e es ih =>
    cases us with
    | nil => cases length
    | cons u us =>
      obtain ⟨head, rest⟩ := List.forall_mem_cons.mp h
      obtain ⟨r, admits, hr⟩ := head
      obtain ⟨rs, all, count, hrs⟩ := ih (Nat.succ.inj length) rest
      exact ⟨r :: rs, .cons admits all, congrArg (· + 1) count, List.forall_mem_cons.mpr ⟨hr, hrs⟩⟩

private theorem exists_trees_const {P : Expr Mark → Prop} {es : List (Expr Mark)}
    (h : ∀ e ∈ es, ∃ r, e.Admits r ∧ P r) :
    ∃ rs, List.Forall₂ Expr.Admits es rs ∧ ∀ r ∈ rs, P r := by
  induction es with
  | nil => exact ⟨[], .nil, by simp⟩
  | cons e es ih =>
    obtain ⟨⟨r, admits, hr⟩, rest⟩ := List.forall_mem_cons.mp h
    obtain ⟨rs, all, hrs⟩ := ih rest
    exact ⟨r :: rs, .cons admits all, List.forall_mem_cons.mpr ⟨hr, hrs⟩⟩

private theorem exists_named {fs : List (String × Expr Mark)} {rs : List (Expr Mark)}
    (h : List.Forall₂ Expr.Admits (fs.map (·.2)) rs) :
    ∃ gs : List (String × Expr Mark), gs.map (·.1) = fs.map (·.1) ∧ gs.map (·.2) = rs := by
  have length : rs.length = fs.length := by simpa using h.length_eq.symm
  refine ⟨(fs.map (·.1)).zip rs, ?_, ?_⟩
  · exact List.map_fst_zip (by simp [length])
  · exact List.map_snd_zip (by simp [length])

/-- The open types of a well-typed expression can be filled in with the types that it is used at. -/
theorem HasTy.exists_filled (h : HasTy Ty.Admits decls env Γ e u) :
    ∃ r, e.Admits r ∧ HasTy Eq decls env Γ r u := by
  induction h with
  | @var _ v m u hv fits => exact ⟨.var v ⟨m.span, u⟩, .node rfl rfl fits .nil, .var hv rfl⟩
  | @lit _ l m fits => exact ⟨.lit l ⟨m.span, .base l.ty⟩, .node rfl rfl fits .nil, .lit rfl⟩
  | @tuple _ es m us length _ fits ih =>
    obtain ⟨rs, admits, count, typed⟩ := exists_trees length ih
    refine ⟨.tuple rs ⟨m.span, .tuple us⟩, .node ?_ rfl fits admits, .tuple count typed rfl⟩
    exact congrArg Expr.Head.tuple (length.trans count.symm)
  | @component _ e index size m us u _ length found fits ih =>
    obtain ⟨r, admits, typed⟩ := ih
    exact ⟨.component r index size ⟨m.span, u⟩, .node rfl rfl fits (.cons admits .nil),
      .component typed length found rfl⟩
  | @record _ struct fields m layout us known names loads _ fits ih =>
    obtain ⟨rs, admits, _, typed⟩ := exists_trees (fields_length names loads) ih
    obtain ⟨gs, same, rfl⟩ := exists_named admits
    refine ⟨.record struct gs ⟨m.span, .struct struct⟩, .node ?_ rfl fits admits,
      .record known (same.trans names) loads typed rfl⟩
    exact congrArg (Expr.Head.record struct) same.symm
  | @field _ e struct name m layout w u known found loads _ fits ih =>
    obtain ⟨r, admits, typed⟩ := ih
    exact ⟨.field r struct name ⟨m.span, u⟩, .node rfl rfl fits (.cons admits .nil),
      .field known found loads typed rfl⟩
  | @inject _ enum ctor e m names payloads v u enumerates mem _ fits ih =>
    obtain ⟨r, admits, typed⟩ := ih
    exact ⟨.inject enum ctor r ⟨m.span, u⟩, .node rfl rfl fits (.cons admits .nil),
      .inject enumerates mem typed rfl⟩
  | @switch _ e enum cases m w payloads u enumerates _ _ fits ihe ihc =>
    obtain ⟨r, admits, typed⟩ := ihe
    obtain ⟨rs, admitsCases, _, typedCases⟩ :=
      exists_trees (P := fun r p => HasTy Eq decls env _ r (.arrow [p] u))
        (by simpa using enumerates.length_eq) ihc
    obtain ⟨gs, same, rfl⟩ := exists_named admitsCases
    refine ⟨.switch r enum gs ⟨m.span, u⟩, .node ?_ rfl fits (.cons admits admitsCases),
      .switch (same.symm ▸ enumerates) typed typedCases rfl⟩
    exact congrArg (Expr.Head.switch enum) same.symm
  | @op _ o m u ho fits => exact ⟨.op o ⟨m.span, u⟩, .node rfl rfl fits .nil, .op ho rfl⟩
  | @app _ f args m us u _ length _ fits ihf iha =>
    obtain ⟨r, admits, typed⟩ := ihf
    obtain ⟨rs, admitsArgs, count, typedArgs⟩ := exists_trees length iha
    refine ⟨.app r rs ⟨m.span, u⟩, .node ?_ rfl fits (.cons admits admitsArgs),
      .app typed count typedArgs rfl⟩
    exact congrArg Expr.Head.app (length.trans count.symm)
  | @lam _ params tys body m us u count binders _ fits ih =>
    obtain ⟨r, admits, typed⟩ := ih
    refine ⟨.lam params us r ⟨m.span, .arrow us u⟩,
      .node ⟨rfl, Ty.admitsAll_iff.mpr binders⟩ rfl fits (.cons admits .nil),
      .lam (count.trans binders.length_eq) (List.forall₂_same.mpr fun _ _ => rfl) typed rfl⟩
  | @default _ es just cons m u _ _ _ fits ihe ihj ihc =>
    obtain ⟨rs, admits, typed⟩ := exists_trees_const ihe
    obtain ⟨j, admitsJust, typedJust⟩ := ihj
    obtain ⟨c, admitsCons, typedCons⟩ := ihc
    refine ⟨.default rs j c ⟨m.span, u⟩, .node ?_ rfl fits ?_,
      .default typed typedJust typedCons rfl⟩
    · exact congrArg Expr.Head.default admits.length_eq
    · exact List.rel_append admits (.cons admitsJust (.cons admitsCons .nil))
  | @raise _ x m u fits => exact ⟨.raise x ⟨m.span, u⟩, .node rfl rfl fits .nil, .raise rfl⟩
  | @rescue _ body x handler m u _ _ fits ihb ihh =>
    obtain ⟨b, admitsBody, typedBody⟩ := ihb
    obtain ⟨h, admitsHandler, typedHandler⟩ := ihh
    exact ⟨.rescue b x h ⟨m.span, u⟩,
      .node rfl rfl fits (.cons admitsBody (.cons admitsHandler .nil)),
      .rescue typedBody typedHandler rfl⟩
  | @force _ e m u _ fits ih =>
    obtain ⟨r, admits, typed⟩ := ih
    exact ⟨.force r ⟨m.span, u⟩, .node rfl rfl fits (.cons admits .nil), .force typed rfl⟩
  | @array _ es m u _ fits ih =>
    obtain ⟨rs, admits, typed⟩ := exists_trees_const ih
    refine ⟨.array rs ⟨m.span, .array u⟩, .node ?_ rfl fits admits, .array typed rfl⟩
    exact congrArg Expr.Head.array admits.length_eq
  | @ite _ cond yes no m u _ _ _ fits ihc ihy ihn =>
    obtain ⟨c, admitsCond, typedCond⟩ := ihc
    obtain ⟨y, admitsYes, typedYes⟩ := ihy
    obtain ⟨n, admitsNo, typedNo⟩ := ihn
    exact ⟨.ite c y n ⟨m.span, u⟩,
      .node rfl rfl fits (.cons admitsCond (.cons admitsYes (.cons admitsNo .nil))),
      .ite typedCond typedYes typedNo rfl⟩
  | @assert _ e m _ fits ih =>
    obtain ⟨r, admits, typed⟩ := ih
    exact ⟨.assert r ⟨m.span, .unit⟩, .node rfl rfl fits (.cons admits .nil), .assert typed rfl⟩
  | @location _ l m w u hl loads fits =>
    exact ⟨.location l ⟨m.span, u⟩, .node rfl rfl fits .nil, .location hl loads rfl⟩

/-- What is well typed once its open types are filled in is well typed as it stands. -/
theorem HasTy.opened (h : HasTy Eq decls env Γ r u) (admits : e.Admits r) :
    HasTy Ty.Admits decls env Γ e u := by
  induction h generalizing e with
  | var hv fits =>
    cases admits.filled with
    | var mark => exact .var hv (fits ▸ mark)
  | lit fits =>
    cases admits.filled with
    | lit mark => exact .lit (fits ▸ mark)
  | tuple length _ fits ih =>
    cases admits.filled with
    | tuple parts mark =>
      exact .tuple (parts.length_eq.trans length) (forall_zip_of_forall₂ parts ih) (fits ▸ mark)
  | component _ length found fits ih =>
    cases admits.filled with
    | component part mark => exact .component (ih part) length found (fits ▸ mark)
  | record known names loads _ fits ih =>
    cases admits.filled with
    | record same parts mark =>
      exact .record known (same.trans names) loads (forall_zip_of_forall₂ parts ih) (fits ▸ mark)
  | field known found loads _ fits ih =>
    cases admits.filled with
    | field part mark => exact .field known found loads (ih part) (fits ▸ mark)
  | inject enumerates mem _ fits ih =>
    cases admits.filled with
    | inject part mark => exact .inject enumerates mem (ih part) (fits ▸ mark)
  | switch enumerates _ _ fits ihe ihc =>
    cases admits.filled with
    | switch part same cases mark =>
      exact .switch (same.symm ▸ enumerates) (ihe part)
        (forall_zip_of_forall₂ (P := fun d p => HasTy _ decls env _ d (.arrow [p] _)) cases ihc)
        (fits ▸ mark)
  | op known fits =>
    cases admits.filled with
    | op mark => exact .op known (fits ▸ mark)
  | app _ length _ fits ihf iha =>
    cases admits.filled with
    | app part args mark =>
      exact .app (ihf part) (args.length_eq.trans length) (forall_zip_of_forall₂ args iha)
        (fits ▸ mark)
  | lam count binders _ fits ih =>
    obtain rfl : _ = _ := List.forall₂_eq_eq_eq ▸ binders
    cases admits.filled with
    | lam tys part mark =>
      exact .lam (count.trans tys.length_eq.symm) (Ty.admitsAll_iff.mp tys) (ih part) (fits ▸ mark)
  | default _ _ _ fits ihe ihj ihc =>
    cases admits.filled with
    | default parts just cons mark =>
      refine .default ?_ (ihj just) (ihc cons) (fits ▸ mark)
      exact forall_of_forall₂ parts.flip fun r hr d admits => ihe r hr admits
  | raise fits =>
    cases admits.filled with
    | raise mark => exact .raise (fits ▸ mark)
  | rescue _ _ fits ihb ihh =>
    cases admits.filled with
    | rescue body handler mark => exact .rescue (ihb body) (ihh handler) (fits ▸ mark)
  | force _ fits ih =>
    cases admits.filled with
    | force part mark => exact .force (ih part) (fits ▸ mark)
  | array _ fits ih =>
    cases admits.filled with
    | array parts mark =>
      exact .array (forall_of_forall₂ parts.flip fun r hr d admits => ih r hr admits) (fits ▸ mark)
  | ite _ _ _ fits ihc ihy ihn =>
    cases admits.filled with
    | ite cond yes no mark => exact .ite (ihc cond) (ihy yes) (ihn no) (fits ▸ mark)
  | assert _ fits ih =>
    cases admits.filled with
    | assert part mark => exact .assert (ih part) (fits ▸ mark)
  | location known loads fits =>
    cases admits.filled with
    | location mark => exact .location known loads (fits ▸ mark)

end Ordinance.Typing
