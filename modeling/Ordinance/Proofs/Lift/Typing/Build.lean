import Ordinance.Proofs.Lift.Run
import Ordinance.Proofs.Typing.Rules

namespace Ordinance.Lift

open Typing

/-- What is known of the types of variables. -/
abbrev Assumptions := Var → Ty → Prop

namespace Assumptions

def Holds (A : Assumptions) (env : Env) (Γ : Dict Var Ty) : Prop := ∀ v t, A v t → VarTy env Γ v t

def Below (A : Assumptions) (n : Nat) : Prop := ∀ v t, A v t → v.id < n

def Fresh (A : Assumptions) (x : Var) : Prop := ∀ t, ¬ A x t

def add (A : Assumptions) (xs : List Var) (ts : List Ty) : Assumptions := fun v t =>
  A v t ∨ (v, t) ∈ xs.zip ts

variable {A : Assumptions} {env : Env} {Γ : Dict Var Ty} {n m : Nat} {x : Var} {xs : List Var}
  {t : Ty} {ts : List Ty}

theorem Below.mono (h : A.Below n) (le : n ≤ m) : A.Below m := fun v t hv =>
  Nat.lt_of_lt_of_le (h v t hv) le

theorem Below.fresh (h : A.Below n) (le : n ≤ x.id) : A.Fresh x := fun t hx =>
  Nat.lt_irrefl _ (Nat.lt_of_lt_of_le (h x t hx) le)

theorem Below.add (h : A.Below n) (bounds : ∀ x ∈ xs, x.id < n) : (A.add xs ts).Below n := by
  rintro v t (hv | hv)
  · exact h v t hv
  · exact bounds v (List.of_mem_zip hv).1

theorem Below.add_next (h : A.Below n) (hx : x.id = n) : (A.add [x] ts).Below (n + 1) :=
  (h.mono (Nat.le_succ n)).add (List.forall_mem_singleton.mpr (hx ▸ Nat.lt_succ_self _))

theorem add_self : A.add [x] [t] x t := .inr List.mem_cons_self

theorem add_all (length : xs.length = ts.length) : List.Forall₂ (A.add xs ts) xs ts :=
  List.forall₂_iff_zip.mpr ⟨length, fun mem => .inr mem⟩

theorem varTy_congr {Δ : Dict Var Ty} {v : Var} (h : Δ.get? v = Γ.get? v) :
    VarTy env Δ v t ↔ VarTy env Γ v t := by
  rw [VarTy, VarTy, h]

/-- New variables do not hide those that something is known of. -/
theorem Holds.insertMany (h : A.Holds env Γ) (fresh : ∀ x ∈ xs, A.Fresh x) (nodup : xs.Nodup)
    (length : xs.length = ts.length) : (A.add xs ts).Holds env (Γ.insertMany (xs.zip ts)) := by
  have keys : (xs.zip ts).map (·.1) = xs := List.map_fst_zip (Nat.le_of_eq length)
  rintro v t (hv | hv)
  · have other : v ∉ (xs.zip ts).map (·.1) := by
      rw [keys]
      exact fun mem => fresh v mem t hv
    exact (varTy_congr (Dict.get?_insertMany_of_notMem other)).mpr (h v t hv)
  · have nodup : ((xs.zip ts).map (·.1)).Nodup := by rwa [keys]
    rw [VarTy, Dict.get?_insertMany_of_mem nodup hv]

end Assumptions

variable {decls : Decls} {env : Env} {A B : Assumptions} {span : Span} {n : Nat}
  {e f arg body : Expr Mark} {es args : List (Expr Mark)} {x : Var} {xs : List Var}
  {t u r : Ty} {ts : List Ty}

/-- The expression has the type wherever the variables have theirs. -/
def Typed (decls : Decls) (env : Env) (A : Assumptions) (e : Expr Mark) (t : Ty) : Prop :=
  ∀ Γ, A.Holds env Γ → HasTy Ty.Admits decls env Γ e t

namespace Typed

theorem mono (h : Typed decls env A e t) (le : ∀ v t, A v t → B v t) : Typed decls env B e t :=
  fun Γ holds => h Γ fun v t hv => holds v t (le v t hv)

theorem ref (h : A x t) : Typed decls env A (ref x span) t := fun _ holds =>
  .var (holds x t h) (Ty.any_admits t)

theorem refs (h : List.Forall₂ A xs ts) :
    List.Forall₂ (Typed decls env A) (Lift.refs xs span) ts :=
  List.forall₂_map_left_iff.mpr (h.imp fun _ _ => .ref)

theorem lit (l : Literal) : Typed decls env A (.lit l (.erased span)) (.base l.ty) := fun _ _ =>
  .lit (Ty.any_admits _)

theorem raise (exn : Exn) : Typed decls env A (.raise exn (.erased span)) t := fun _ _ =>
  .raise (Ty.any_admits t)

theorem wrap (h : Typed decls env A e t) : Typed decls env A (wrap e span) (.option t) :=
  fun Γ holds => .inject (.optional t) (by simp) (h Γ holds) (Ty.any_admits _)

theorem nothing : Typed decls env A (nothing span) (.option t) := fun Γ holds =>
  .inject (.optional t) (u := .unit) (by simp) (lit .unit Γ holds) (Ty.any_admits _)

theorem apply (hf : Typed decls env A f (.arrow ts r))
    (hargs : List.Forall₂ (Typed decls env A) args ts) : Typed decls env A (apply f args span) r :=
  fun Γ holds => .app (hf Γ holds) hargs.length_eq
    (fun _ hx => List.forall₂_zip hargs hx Γ holds) (Ty.any_admits r)

theorem lambda {tys : List Ty} (fresh : ∀ x ∈ xs, A.Fresh x) (nodup : xs.Nodup)
    (length : xs.length = ts.length) (admits : List.Forall₂ Ty.Admits tys ts)
    (hbody : Typed decls env (A.add xs ts) body r) :
    Typed decls env A (lambda xs tys body span) (.arrow ts r) := fun _ holds =>
  .lam (length.trans admits.length_eq.symm) admits
    (hbody _ (holds.insertMany fresh nodup length)) (Ty.any_admits _)

theorem lambda_one {tys : List Ty} (fresh : A.Fresh x) (admits : List.Forall₂ Ty.Admits tys [t])
    (hbody : Typed decls env (A.add [x] [t]) body r) :
    Typed decls env A (Lift.lambda [x] tys body span) (.arrow [t] r) :=
  .lambda (List.forall_mem_singleton.mpr fresh) (List.nodup_singleton x) rfl admits hbody

end Typed

section Runs

variable {k : Var → Supply (Expr Mark)} {ks : List Var → Supply (Expr Mark)}
  {ifAbsent ifPresent : Expr Mark}

theorem thunk_typed (below : A.Below n) (h : Typed decls env A body t) :
    Draws n (thunk body span) fun out _ => Typed decls env A out (.arrow [.unit] t) := by
  refine .bind (.fresh "_") fun x m _ hx => .pure ?_
  exact .lambda_one (below.fresh (Nat.le_of_eq hx.1.symm)) (.cons (.refl _) .nil)
    (h.mono fun _ _ => .inl)

theorem inspect_typed (below : A.Below n) (fresh : A.Fresh x)
    (harg : Typed decls env A arg (.option t)) (habsent : Typed decls env A ifAbsent r)
    (hpresent : Typed decls env (A.add [x] [t]) ifPresent r) :
    Draws n (inspect arg ifAbsent x ifPresent span) fun out _ => Typed decls env A out r := by
  refine .bind (thunk_typed below habsent) fun absent m _ habsent => .pure fun Γ holds => ?_
  have present : Typed decls env A (lambda [x] [.any] ifPresent span) (.arrow [t] r) :=
    .lambda_one fresh (.cons (Ty.any_admits t) .nil) hpresent
  refine .switch (.optional t) (harg Γ holds) ?_ (Ty.any_admits r)
  exact List.forall_mem_cons.mpr ⟨habsent Γ holds,
    List.forall_mem_singleton.mpr (present Γ holds)⟩

theorem bind_typed (below : A.Below n) (fresh : A.Fresh x)
    (harg : Typed decls env A arg (.option t))
    (hbody : Typed decls env (A.add [x] [t]) body (.option r)) :
    Draws n (bind x arg body span) fun out _ => Typed decls env A out (.option r) :=
  inspect_typed below fresh harg .nothing hbody

theorem bindFresh_typed (below : A.Below n) (harg : Typed decls env A arg (.option t))
    (hk : ∀ x, (A.add [x] [t]).Below (n + 1) →
      Draws (n + 1) (k x) fun body _ => Typed decls env (A.add [x] [t]) body (.option r)) :
    Draws n (bindFresh arg k span) fun out _ => Typed decls env A out (.option r) := by
  refine .bind (.fresh "x") fun x m le hx => ?_
  obtain ⟨rfl, rfl⟩ := hx
  refine .bind (hk x (below.add_next rfl)) fun body m' le' hbody => ?_
  exact bind_typed (below.mono (Nat.le_trans le le')) (below.fresh (Nat.le_refl _)) harg hbody

theorem bindEach_typed (below : A.Below n) (fresh : ∀ x ∈ xs, A.Fresh x) (nodup : xs.Nodup)
    (bounds : ∀ x ∈ xs, x.id < n) (length : xs.length = ts.length)
    (hargs : List.Forall₂ (fun arg t => Typed decls env A arg (.option t)) args ts)
    (hbody : Typed decls env (A.add xs ts) body (.option r)) :
    Draws n (bindEach body span (xs.zip args)) fun out _ => Typed decls env A out (.option r) := by
  induction args generalizing xs ts A with
  | nil =>
    cases hargs
    obtain rfl := List.eq_nil_of_length_eq_zero length
    exact .pure (hbody.mono fun v t hv => hv.resolve_right nofun)
  | cons arg args ih =>
    obtain ⟨t, ts, harg, rest, rfl⟩ := List.forall₂_cons_left_iff.mp hargs
    obtain ⟨x, xs, rfl⟩ := List.exists_cons_of_length_eq_add_one length
    obtain ⟨hx, nodup⟩ := List.nodup_cons.mp nodup
    obtain ⟨fresh, freshs⟩ := List.forall_mem_cons.mp fresh
    obtain ⟨bound, bounds⟩ := List.forall_mem_cons.mp bounds
    have below' : (A.add [x] [t]).Below n := below.add (List.forall_mem_singleton.mpr bound)
    have freshs' : ∀ y ∈ xs, (A.add [x] [t]).Fresh y := by
      rintro y hy u (hu | hu)
      · exact freshs y hy u hu
      · obtain ⟨rfl, _⟩ : y = x ∧ u = t := by simpa using hu
        exact hx hy
    have rest' : List.Forall₂ (fun a u => Typed decls env (A.add [x] [t]) a (.option u)) args ts :=
      rest.imp fun a u h => h.mono fun _ _ => .inl
    have hbody' : Typed decls env ((A.add [x] [t]).add xs ts) body (.option r) := by
      refine hbody.mono fun v u hv => ?_
      rcases hv with hv | hv
      · exact .inl (.inl hv)
      · rcases List.mem_cons.mp hv with hv | hv
        · exact .inl (.inr (List.mem_singleton.mpr hv))
        · exact .inr hv
    refine .bind (ih below' freshs' nodup bounds (Nat.succ.inj length) rest' hbody') ?_
    exact fun body m le hbody => bind_typed (below.mono le) fresh harg hbody

theorem bindAll_typed (below : A.Below n)
    (hargs : List.Forall₂ (fun arg t => Typed decls env A arg (.option t)) args ts)
    (hk : ∀ xs m, List.Forall₂ (A.add xs ts) xs ts →
      Draws m (ks xs) fun body _ => Typed decls env (A.add xs ts) body (.option r)) :
    Draws n (bindAll args ks span) fun out _ => Typed decls env A out (.option r) := by
  refine .bind (.freshMany "x" args.length) fun xs m le hxs => ?_
  obtain ⟨length, nodup, bounds⟩ := hxs
  have length : xs.length = ts.length := length.trans hargs.length_eq
  refine .bind (hk xs m (Assumptions.add_all length)) fun body m' le' hbody => ?_
  exact bindEach_typed (below.mono (Nat.le_trans le le'))
    (fun x hx => below.fresh (bounds x hx).1) nodup
    (fun x hx => Nat.lt_of_lt_of_le (bounds x hx).2 le') length hargs hbody

theorem applyAll_typed (below : A.Below n) (hf : Typed decls env A f (.arrow ts (.option r)))
    (hargs : List.Forall₂ (fun arg t => Typed decls env A arg (.option t)) args ts) :
    Draws n (applyAll f args span) fun out _ => Typed decls env A out (.option r) :=
  bindAll_typed below hargs fun _ _ hxs =>
    .pure (.apply (hf.mono fun _ _ => .inl) (Typed.refs hxs))

theorem mapAll_typed (below : A.Below n) (hf : Typed decls env A f (.arrow ts r))
    (hargs : List.Forall₂ (fun arg t => Typed decls env A arg (.option t)) args ts) :
    Draws n (mapAll f args span) fun out _ => Typed decls env A out (.option r) :=
  bindAll_typed below hargs fun _ _ hxs =>
    .pure (.wrap (.apply (hf.mono fun _ _ => .inl) (Typed.refs hxs)))

theorem unwrap_typed (below : A.Below n) (harg : Typed decls env A arg (.option t)) :
    Draws n (unwrap arg span) fun out _ => Typed decls env A out t := by
  refine .bind (.fresh "x") fun x m le hx => ?_
  exact inspect_typed (below.mono le) (below.fresh (Nat.le_of_eq hx.1.symm)) harg (.raise .noValue)
    (.ref Assumptions.add_self)

end Runs

end Ordinance.Lift
