import Ordinance.Lift.Forms
import Ordinance.Proofs.Lift.Typing.Build
import Ordinance.Proofs.Op.Signature

namespace Ordinance.Lift

open Typing

variable {decls : Decls} {env : Env} {A : Assumptions} {span : Span} {n : Nat}
  {e : Expr Mark} {es : List (Expr Mark)} {struct enum : String} {t u r : Ty} {ts : List Ty}

theorem Typed.op {o : Op} (h : o.Takes ts r) :
    Typed decls env A (.op o (.erased span)) (.arrow ts r) := fun _ _ =>
  .op h.hasTy (Ty.any_admits _)

section Control

variable {f init xs cond yes no just cons : Expr Mark} {args exceptions : List (Expr Mark)}

theorem rescueEmpty_typed {handler : Expr Mark} (below : A.Below n)
    (he : Typed decls env A e (.option t)) (hh : Typed decls env A handler (.option t)) :
    Draws n (rescueEmpty e handler span) fun out _ => Typed decls env A out (.option t) := by
  refine .bind (.fresh "x") fun x m le hx => ?_
  exact inspect_typed (below.mono le) (below.fresh (Nat.le_of_eq hx.1.symm)) he hh
    (.wrap (.ref Assumptions.add_self))

theorem force_typed (below : A.Below n) (he : Typed decls env A e (.option t)) :
    Draws n (force e span) fun out _ => Typed decls env A out (.option t) :=
  .bind (unwrap_typed below he) fun _ _ _ h => .pure (.wrap h)

theorem default_typed (below : A.Below n)
    (hexceptions : ∀ e ∈ exceptions, Typed decls env A e (.option t))
    (hjust : Typed decls env A just (.option .bool)) (hcons : Typed decls env A cons (.option t)) :
    Draws n (default exceptions just cons span) fun out _ => Typed decls env A out (.option t) := by
  refine .bind (thunk_typed below hjust) fun just m le hjust => ?_
  refine .bind (thunk_typed (below.mono le) hcons) fun cons m' _ hcons => .pure ?_
  have exceptions : Typed decls env A (.array exceptions (.erased span)) (.array (.option t)) :=
    fun Γ holds => .array (fun e he => hexceptions e he Γ holds) (Ty.any_admits _)
  exact .apply (.op (.resolveDefault t)) (.cons exceptions (.cons hjust (.cons hcons .nil)))

theorem ite_typed (below : A.Below n) (hcond : Typed decls env A cond (.option .bool))
    (hyes : Typed decls env A yes (.option t)) (hno : Typed decls env A no (.option t)) :
    Draws n (ite cond yes no span) fun out _ => Typed decls env A out (.option t) := by
  refine bindFresh_typed below hcond fun x _ => .pure fun Γ holds => ?_
  exact .ite (Typed.ref Assumptions.add_self Γ holds) (hyes.mono (fun _ _ => .inl) Γ holds)
    (hno.mono (fun _ _ => .inl) Γ holds) (Ty.any_admits _)

theorem assert_typed (below : A.Below n) (he : Typed decls env A e (.option .bool)) :
    Draws n (assert e span) fun out _ => Typed decls env A out (.option .unit) := by
  refine bindFresh_typed below he fun x _ => .pure (.wrap fun Γ holds => ?_)
  exact .assert (Typed.ref Assumptions.add_self Γ holds) (Ty.any_admits _)

theorem operator_typed {o : Op} (below : A.Below n) (h : o.Takes ts r) :
    Draws n (operator o span) fun out _ =>
      Typed decls env A out (.option (.arrow ts (.option r))) := by
  refine .bind (.freshMany "x" o.arity) fun xs m _ hxs => .pure ?_
  obtain ⟨length, nodup, bounds⟩ := hxs
  have length : xs.length = ts.length := length.trans h.length_eq.symm
  have body : Typed decls env (A.add xs ts)
      (wrap (apply (.op o (.erased span)) (refs xs span) span) span) (.option r) :=
    .wrap (.apply (.op h) (Typed.refs (Assumptions.add_all length)))
  refine .wrap (.lambda (fun x hx => below.fresh (bounds x hx).1) nodup length ?_ body)
  rw [List.forall₂_map_left_iff]
  exact List.forall₂_iff_zip.mpr ⟨length, fun _ => Ty.any_admits _⟩

theorem call_typed (below : A.Below n)
    (hf : Typed decls env A f (.option (.arrow ts (.option r))))
    (hargs : List.Forall₂ (fun arg t => Typed decls env A arg (.option t)) args ts) :
    Draws n (call f args span) fun out _ => Typed decls env A out (.option r) := by
  refine bindFresh_typed below hf fun g below => ?_
  exact applyAll_typed below (.ref Assumptions.add_self)
    (hargs.imp fun _ _ h => h.mono fun _ _ => .inl)

end Control

section Data

variable {layout : Layout} {name ctor : String} {index size : Nat} {names : List String}
  {payloads : List Ty} {fields cases : List (String × Expr Mark)}

theorem tuple_typed (below : A.Below n)
    (h : List.Forall₂ (fun e t => Typed decls env A e (.option t)) es ts) :
    Draws n (tuple es span) fun out _ => Typed decls env A out (.option (.tuple ts)) := by
  refine bindAll_typed below h fun xs _ hxs => .pure (.wrap fun Γ holds => ?_)
  have parts : List.Forall₂ (Typed decls env (A.add xs ts)) (refs xs span) ts := Typed.refs hxs
  exact .tuple parts.length_eq (fun _ hx => List.forall₂_zip parts hx Γ holds) (Ty.any_admits _)

theorem array_typed (below : A.Below n) (h : ∀ e ∈ es, Typed decls env A e (.option t)) :
    Draws n (array es span) fun out _ => Typed decls env A out (.option (.array (.option t))) := by
  have items : List.Forall₂ (fun e t => Typed decls env A e (.option t)) es (es.map fun _ => t) :=
    List.forall₂_map_right_iff.mpr (List.forall₂_same.mpr h)
  refine bindAll_typed below items fun xs _ hxs => .pure (.wrap fun Γ holds => ?_)
  refine .array (List.forall_mem_map.mpr fun x hx => ?_) (Ty.any_admits _)
  exact Typed.wrap (.ref (forall_of_forall₂_const hxs x hx)) Γ holds

theorem component_typed (below : A.Below n) (he : Typed decls env A e (.option (.tuple ts)))
    (length : ts.length = size) (found : ts[index]? = some t) :
    Draws n (component e index size span) fun out _ => Typed decls env A out (.option t) := by
  refine bindFresh_typed below he fun x _ => .pure (.wrap fun Γ holds => ?_)
  exact .component (Typed.ref Assumptions.add_self Γ holds) length found (Ty.any_admits _)

/-- A record of options. -/
theorem Typed.record (known : decls.structs.get? struct = some layout)
    (keys : fields.map (·.1) = layout.keys) (values : layout.values = ts.map .option)
    (h : List.Forall₂ (fun e t => Typed decls env A e (.option t)) (fields.map (·.2)) ts) :
    Typed decls env A (.record struct fields (.erased span)) (.struct struct) := by
  intro Γ holds
  have h : List.Forall₂ (Typed decls env A) (fields.map (·.2)) (ts.map .option) :=
    List.forall₂_map_right_iff.mpr h
  refine .record known keys (.refl layout.values) (fun x hx => ?_) (Ty.any_admits _)
  rw [values] at hx
  exact List.forall₂_zip h hx Γ holds

theorem record_typed (below : A.Below n) (known : decls.structs.get? struct = some layout)
    (keys : fields.map (·.1) = layout.keys) (values : layout.values = ts.map .option)
    (h : List.Forall₂ (fun e t => Typed decls env A e (.option t)) (fields.map (·.2)) ts) :
    Draws n (record struct fields span) fun out _ =>
      Typed decls env A out (.option (.struct struct)) := by
  refine bindAll_typed below h fun xs _ hxs => .pure (.wrap ?_)
  let values' := xs.map fun x => wrap (ref x span) span
  have length : (fields.map (·.1)).length = values'.length := by
    simpa [values'] using h.length_eq.trans hxs.length_eq.symm
  refine .record known ((List.map_fst_zip (Nat.le_of_eq length)).trans keys) values ?_
  rw [List.map_snd_zip (Nat.le_of_eq length.symm), List.forall₂_map_left_iff]
  exact hxs.imp fun _ _ hx => .wrap (.ref hx)

theorem field_typed (below : A.Below n) (known : decls.structs.get? struct = some layout)
    (found : layout.get? name = some (.option t))
    (he : Typed decls env A e (.option (.struct struct))) :
    Draws n (field e struct name span) fun out _ => Typed decls env A out (.option t) := by
  refine bindFresh_typed below he fun x _ => .pure fun Γ holds => ?_
  exact .field known found (.refl _) (Typed.ref Assumptions.add_self Γ holds) (Ty.any_admits _)

theorem inject_typed (below : A.Below n) (enumerates : Enumerates decls enum t names payloads)
    (mem : (ctor, u) ∈ names.zip payloads) (he : Typed decls env A e (.option u)) :
    Draws n (inject enum ctor e span) fun out _ => Typed decls env A out (.option t) := by
  refine bindFresh_typed below he fun x _ => .pure (.wrap fun Γ holds => ?_)
  exact .inject enumerates mem (Typed.ref Assumptions.add_self Γ holds) (Ty.any_admits _)

theorem switch_typed (below : A.Below n)
    (enumerates : Enumerates decls enum u (cases.map (·.1)) payloads)
    (he : Typed decls env A e (.option u))
    (hcases : List.Forall₂ (fun e p => Typed decls env A e (.arrow [p] (.option t)))
      (cases.map (·.2)) payloads) :
    Draws n (switch e enum cases span) fun out _ => Typed decls env A out (.option t) := by
  refine bindFresh_typed below he fun x _ => .pure fun Γ holds => ?_
  refine .switch enumerates (Typed.ref Assumptions.add_self Γ holds) ?_ (Ty.any_admits _)
  exact fun _ hx => (List.forall₂_zip hcases hx).mono (fun _ _ => .inl) Γ holds

end Data

section Lists

variable {f init xs : Expr Mark}

theorem onElement_typed (decls : Decls) (env : Env) {g x : Var} (below : A.Below n) (hg : A g (.arrow [t] (.option r)))
    (hx : A x (.option t)) :
    Draws n (onElement g x span) fun out _ => Typed decls env A out (.option r) := by
  refine bindFresh_typed below (.ref hx) fun y _ => .pure ?_
  exact .apply (.ref (.inl hg)) (.cons (.ref Assumptions.add_self) .nil)

theorem map_typed (below : A.Below n) (hf : Typed decls env A f (.option (.arrow [t] (.option r))))
    (hxs : Typed decls env A xs (.option (.array (.option t)))) :
    Draws n (map f xs span) fun out _ =>
      Typed decls env A out (.option (.array (.option r))) := by
  refine bindFresh_typed below hf fun g below => ?_
  refine bindFresh_typed below (hxs.mono fun _ _ => .inl) fun ys below => ?_
  refine .bind (.fresh "x") fun x m le hx => ?_
  obtain ⟨id, rfl⟩ := hx
  refine .bind (onElement_typed decls env (below.add_next id) (.inl (.inl Assumptions.add_self))
    Assumptions.add_self) fun body m' _ hbody => .pure ?_
  refine .wrap (.apply (.op (.map (.option t) (.option r)))
    (.cons ?_ (.cons (.ref Assumptions.add_self) .nil)))
  exact .lambda_one (below.fresh (Nat.le_of_eq id.symm)) (.cons (Ty.any_admits _) .nil) hbody

theorem filter_typed (below : A.Below n)
    (hf : Typed decls env A f (.option (.arrow [t] (.option .bool))))
    (hxs : Typed decls env A xs (.option (.array (.option t)))) :
    Draws n (filter f xs span) fun out _ =>
      Typed decls env A out (.option (.array (.option t))) := by
  refine bindFresh_typed below hf fun g below => ?_
  refine bindFresh_typed below (hxs.mono fun _ _ => .inl) fun ys below => ?_
  refine .bind (.fresh "x") fun x m le hx => ?_
  obtain ⟨id, rfl⟩ := hx
  have below' : (Assumptions.add _ [x] [.option t]).Below (n + 1 + 1 + 1) := below.add_next id
  refine .bind (onElement_typed decls env below' (.inl (.inl Assumptions.add_self))
    Assumptions.add_self) fun test m' le' htest => ?_
  refine .bind (unwrap_typed (below'.mono le') htest) fun body _ _ hbody => .pure ?_
  refine .wrap (.apply (.op (.filter (.option t)))
    (.cons ?_ (.cons (.ref Assumptions.add_self) .nil)))
  exact .lambda_one (below.fresh (Nat.le_of_eq id.symm)) (.cons (Ty.any_admits _) .nil) hbody

theorem foldStep_typed (decls : Decls) (env : Env) {g acc x : Var} (below : A.Below n)
    (hg : A g (.arrow [r, t] (.option r))) (hacc : acc.id = n) (hx : x.id = n + 1) :
    Draws (n + 1 + 1) (applyAll (ref g span) [ref acc span, ref x span] span) fun body _ =>
      Typed decls env A (lambda [acc, x] [.any, .any] body span)
        (.arrow [.option r, .option t] (.option r)) := by
  let B := A.add [acc, x] [.option r, .option t]
  have bounds : ∀ v ∈ [acc, x], n ≤ v.id ∧ v.id < n + 1 + 1 := by
    simp only [List.forall_mem_cons, hacc, hx]
    exact ⟨⟨Nat.le_refl _, by omega⟩, ⟨by omega, Nat.lt_succ_self _⟩, nofun⟩
  have nodup : [acc, x].Nodup := by
    refine List.nodup_cons.mpr ⟨fun mem => ?_, List.nodup_singleton x⟩
    rw [List.mem_singleton.mp mem, hx] at hacc
    omega
  have below' : B.Below (n + 1 + 1) := (below.mono (by omega)).add fun v hv => (bounds v hv).2
  have first : B acc (.option r) := .inr List.mem_cons_self
  have second : B x (.option t) := .inr (List.mem_cons_of_mem _ List.mem_cons_self)
  have hg : Typed decls env B (ref g span) (.arrow [r, t] (.option r)) := .ref (.inl hg)
  refine .imp (applyAll_typed below' hg (.cons (.ref first) (.cons (.ref second) .nil)))
    fun body m _ hbody => ?_
  exact .lambda (fun v hv => below.fresh (bounds v hv).1) nodup rfl
    (.cons (Ty.any_admits _) (.cons (Ty.any_admits _) .nil)) hbody

theorem foldWith_typed {o : Op} (below : A.Below n)
    (ho : o.Takes [.arrow [.option r, .option t] (.option r), .option r, .array (.option t)]
      (.option r))
    (hf : Typed decls env A f (.option (.arrow [r, t] (.option r))))
    (hinit : Typed decls env A init (.option r))
    (hxs : Typed decls env A xs (.option (.array (.option t)))) :
    Draws n (foldWith o f init xs span) fun out _ => Typed decls env A out (.option r) := by
  refine bindFresh_typed below hf fun g below => ?_
  refine bindFresh_typed below (hxs.mono fun _ _ => .inl) fun ys below => ?_
  refine .bind (.fresh "acc") fun acc m _ hacc => ?_
  refine .bind (.fresh "x") fun x m' _ hx => ?_
  obtain ⟨hacc, rfl⟩ := hacc
  obtain ⟨hx, rfl⟩ := hx
  refine .bind (foldStep_typed decls env below (.inl Assumptions.add_self) hacc hx)
    fun body _ _ hstep => .pure ?_
  exact .apply (.op ho) (.cons hstep (.cons (hinit.mono fun _ _ h => .inl (.inl h))
    (.cons (.ref Assumptions.add_self) .nil)))

end Lists

end Ordinance.Lift
