import Ordinance.Proofs.Lift.Type
import Ordinance.Proofs.Lift.Typing.Build

namespace Ordinance

namespace Expr

def passesUnit : List (Expr Mark) → Bool
  | [lit .unit _] => true
  | _ => false

/-- A call of a delayed value passes the unit literal, the function of `map` or `filter` is not a
delayed value, and nor is an operator. -/
def callsFit : Expr Mark → Bool
  | op _ m => !m.ty.isThunk
  | app (op o _) args _ =>
      !(o == .map || o == .filter) || args.head?.all fun f => !f.mark.ty.isThunk
  | app f args _ => !f.mark.ty.isThunk || passesUnit args
  | _ => true

/-- The same of all nodes except for the operators that are called. -/
def thunksForced (e : Expr Mark) : Bool :=
  e.fold fun e below => e.callsFit &&
    match e with
    | app (op ..) _ _ => below.tail.all id
    | _ => below.all id

/-- The parts of a node that are values: a called operator is not. -/
def valueParts : Expr Mark → List (Expr Mark)
  | app (op ..) args _ => args
  | e => e.children

theorem valueParts_app {f : Expr Mark} {args : List (Expr Mark)} {m : Mark}
    (notOp : ∀ o k, f ≠ op o k) : (app f args m).valueParts = f :: args := by
  cases f with
  | op o k => exact absurd rfl (notOp o k)
  | _ => rfl

theorem valueParts_subset {e d : Expr Mark} (h : d ∈ e.valueParts) : d ∈ e.children := by
  unfold valueParts at h
  split at h
  next => exact List.mem_cons_of_mem _ h
  next => exact h

theorem thunksForced_iff {e : Expr Mark} :
    e.thunksForced = true ↔ e.callsFit = true ∧ ∀ d ∈ e.valueParts, d.thunksForced = true := by
  rw [thunksForced, fold_eq, Bool.and_eq_true]
  refine and_congr_right fun _ => ?_
  unfold valueParts
  split <;> simp [children, thunksForced, List.all_map]

end Expr

namespace Lift

open Typing

variable {env : Env} {Γ : Dict Var Ty} {ctx : Ctx} {n m : Nat} {bs cs : List Var} {v x : Var}
  {t : Ty}

/-- The type of the variable that stands for one of the type `t`. -/
def Mode.image (t : Ty) : Mode → Ty
  | .payload => t.image
  | .option => .option t.image
  | .scope => t

/-- What the context says about the variables of lifted expressions. -/
def Ctx.known (env : Env) (Γ : Dict Var Ty) (ctx : Ctx) : Assumptions := fun x u =>
  ∃ v b t, ctx.get? v = some b ∧ VarTy env Γ v t ∧ x = b.target ∧ u = b.mode.image t

/-- The context can be used for an expression with the binders `bs`, with numbers from `n` upwards:
its own variables are others. -/
structure Ready (env : Env) (Γ : Dict Var Ty) (ctx : Ctx) (n : Nat) (bs : List Var) : Prop where
  below : ∀ v b, ctx.get? v = some b → b.target.id < n
  scopes : ∀ v b t, ctx.get? v = some b → b.mode = .scope → VarTy env Γ v t →
    ∃ input output, t = .arrow [.struct input] (.struct output)
  apart : ∀ v ∈ bs, ctx.get? v = none
  nodup : bs.Nodup

namespace Ready

theorem known_below (h : Ready env Γ ctx n bs) : (ctx.known env Γ).Below n := by
  rintro x u ⟨v, b, t, found, _, rfl, _⟩
  exact h.below v b found

theorem mono (h : Ready env Γ ctx n bs) (le : n ≤ m) : Ready env Γ ctx m bs :=
  { h with below := fun v b found => Nat.lt_of_lt_of_le (h.below v b found) le }

theorem sub (h : Ready env Γ ctx n bs) (sub : cs.Sublist bs) : Ready env Γ ctx n cs :=
  { h with
    apart := fun v hv => h.apart v (sub.subset hv)
    nodup := h.nodup.sublist sub }

theorem child {e d : Expr Mark} (h : Ready env Γ ctx n e.binders) (mem : d ∈ e.children) :
    Ready env Γ ctx n d.binders := by
  refine h.sub ?_
  rw [e.binders_eq, List.flatMap_def]
  exact (List.sublist_flatten_of_mem (List.mem_map_of_mem mem)).trans
    (List.sublist_append_right _ _)

end Ready

/-- The second typing of variables is the first with `v` of the type `t`. -/
structure Binds (env : Env) (Γ : Dict Var Ty) (v : Var) (t : Ty) (env' : Env) (Δ : Dict Var Ty) :
    Prop where
  here : ∀ u, VarTy env' Δ v u → u = t
  others : ∀ w u, w ≠ v → VarTy env' Δ w u → VarTy env Γ w u

theorem binds_insert : Binds env Γ v t env (Γ.insert v t) where
  here u h := by simpa [VarTy] using h
  others w u ne h := by simpa [VarTy, ne] using h

section Bind

variable {env' : Env} {Δ : Dict Var Ty} {mode : Mode}

/-- A variable that has no lifted form adds nothing to what is known. -/
theorem Ready.skip (h : Ready env Γ ctx n (v :: bs)) (binds : Binds env Γ v t env' Δ) :
    Ready env' Δ ctx n bs ∧ ∀ y u, ctx.known env' Δ y u → ctx.known env Γ y u := by
  have other {w : Var} {b : Binding} (found : ctx.get? w = some b) : w ≠ v := by
    rintro rfl
    simp [h.apart w List.mem_cons_self] at found
  constructor
  · exact { h.sub (List.sublist_cons_self v bs) with
      scopes := fun w b u found scope hu =>
        h.scopes w b u found scope (binds.others w u (other found) hu) }
  · rintro y u ⟨w, b, u', found, hu, rfl, rfl⟩
    exact ⟨w, b, u', found, binds.others w u' (other found) hu, rfl, rfl⟩

theorem bind_ready (h : Ready env Γ ctx n (v :: bs)) (binds : Binds env Γ v t env' Δ)
    (scope : mode = .scope → ∃ input output, t = .arrow [.struct input] (.struct output)) :
    Draws n (ctx.bind v mode) fun r m => n ≤ r.2.id ∧ r.2.id < m ∧ Ready env' Δ r.1 m bs ∧
      ∀ y u, r.1.known env' Δ y u → (ctx.known env Γ).add [r.2] [mode.image t] y u := by
  refine .bind (.fresh v.name) fun x m le hx => .pure ?_
  obtain ⟨rfl, rfl⟩ := hx
  obtain ⟨new, nodup⟩ := List.nodup_cons.mp h.nodup
  refine ⟨Nat.le_refl _, Nat.lt_succ_self _, ⟨fun w b found => ?_, fun w b u found hb hu => ?_,
    fun w hw => ?_, nodup⟩, ?_⟩
  · rw [Dict.get?_insert] at found
    split at found
    next =>
      cases found
      exact Nat.lt_succ_self _
    next => exact Nat.lt_succ_of_lt (h.below w b found)
  · rw [Dict.get?_insert] at found
    split at found
    next eq =>
      cases found
      subst eq
      rw [binds.here u hu]
      exact scope hb
    next ne => exact h.scopes w b u found hb (binds.others w u ne hu)
  · have ne : w ≠ v := fun eq => new (eq ▸ hw)
    simpa [ne] using h.apart w (List.mem_cons_of_mem v hw)
  · rintro y u ⟨w, b, u', found, hu, rfl, rfl⟩
    rw [Dict.get?_insert] at found
    split at found
    next eq =>
      cases found
      subst eq
      rw [binds.here u' hu]
      exact Assumptions.add_self
    next ne => exact .inl ⟨w, b, u', found, binds.others w u' ne hu, rfl, rfl⟩

theorem bindParams_ready {vs : List Var} {ts : List Ty} (h : Ready env Γ ctx n (vs ++ bs))
    (length : vs.length = ts.length) :
    Draws n (ctx.bindParams vs) fun r m =>
      (r.2.length = ts.length ∧ r.2.Nodup ∧ ∀ x ∈ r.2, n ≤ x.id ∧ x.id < m) ∧
      Ready env (Γ.insertMany (vs.zip ts)) r.1 m bs ∧
      ∀ y u, r.1.known env (Γ.insertMany (vs.zip ts)) y u →
        (ctx.known env Γ).add r.2 (ts.map .image) y u := by
  induction vs generalizing ctx Γ n ts with
  | nil =>
    obtain rfl := List.eq_nil_of_length_eq_zero length.symm
    exact .pure ⟨⟨rfl, .nil, nofun⟩, h, fun _ _ => .inl⟩
  | cons v vs ih =>
    obtain ⟨t, ts, rfl⟩ := List.exists_cons_of_length_eq_add_one length.symm
    refine .bind (bind_ready h (binds_insert (t := t)) nofun) fun r m le first => ?_
    obtain ⟨low, high, ready, known⟩ := first
    refine .bind (ih ready (Nat.succ.inj length)) fun r' m' le' rest => .pure ?_
    obtain ⟨⟨length', nodup, bounds⟩, ready', known'⟩ := rest
    have new : r.2 ∉ r'.2 := fun mem => Nat.lt_irrefl _ (Nat.lt_of_lt_of_le high (bounds _ mem).1)
    refine ⟨⟨congrArg (· + 1) length', List.nodup_cons.mpr ⟨new, nodup⟩, ?_⟩, ready', ?_⟩
    · refine List.forall_mem_cons.mpr ⟨⟨low, Nat.lt_of_lt_of_le high le'⟩, fun x hx => ?_⟩
      exact ⟨Nat.le_trans le (bounds x hx).1, (bounds x hx).2⟩
    · intro y u hu
      rcases known' y u hu with hu | hu
      · rcases known y u hu with hu | hu
        · exact .inl hu
        · exact .inr (List.mem_cons.mpr (.inl (List.mem_singleton.mp hu)))
      · exact .inr (List.mem_cons_of_mem _ hu)

end Bind

end Lift

end Ordinance
