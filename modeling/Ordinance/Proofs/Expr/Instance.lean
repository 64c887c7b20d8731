import Ordinance.Proofs.Expr.Basic

namespace Ordinance.Expr

variable {μ : Type} {e t : Expr μ}

private theorem named_eq {fs gs : List (String × Expr μ)} (names : fs.map (·.1) = gs.map (·.1))
    (parts : fs.map (·.2) = gs.map (·.2)) : fs = gs := by
  rw [← List.zip_unzip fs, ← List.zip_unzip gs, List.unzip_eq_map, List.unzip_eq_map, names, parts]

/-- A tree is its root, without its mark, and its mark and its parts. -/
theorem eq_of_parts (head : e.head = t.head) (mark : e.mark = t.mark)
    (children : e.children = t.children) : e = t := by
  cases e with
  | record s fs m =>
    cases t with
    | record s' gs m' =>
      obtain ⟨rfl, names⟩ := Head.record.inj head
      obtain rfl : m = m' := mark
      rw [named_eq names children]
    | _ => cases head
  | switch d n cs m =>
    cases t with
    | switch d' n' ds m' =>
      obtain ⟨rfl, names⟩ := Head.switch.inj head
      obtain ⟨rfl, parts⟩ := List.cons.inj children
      obtain rfl : m = m' := mark
      rw [named_eq names parts]
    | _ => cases head
  | default es j c m =>
    cases t with
    | default es' j' c' m' =>
      obtain ⟨rfl, parts⟩ := List.append_inj children (Head.default.inj head)
      simp_all [Expr.mark]
    | _ => cases head
  | _ => cases t <;> simp_all [Expr.head, Expr.mark, Expr.children]

section Annotate

/-- The expression with `w` as the type that its root comes with. -/
def annotate (w : Ty) (e : Expr Mark) : Expr Mark := e.setMark ⟨e.mark.span, w⟩

variable (w : Ty) (e : Expr Mark)

@[simp] theorem head_annotate : (e.annotate w).head = e.head := by
  cases e <;> rfl

@[simp] theorem mark_annotate : (e.annotate w).mark = ⟨e.mark.span, w⟩ := by
  cases e <;> rfl

@[simp] theorem children_annotate : (e.annotate w).children = e.children := by
  cases e <;> rfl

end Annotate

section Instance

variable {e t : Expr Mark}

theorem Head.Admits.refl (h : Head) : h.Admits h := by
  cases h with
  | lam params tys => exact ⟨rfl, Ty.AdmitsAll.refl tys⟩
  | _ => rfl

theorem Head.Admits.antisymm {h k : Head} (hk : h.Admits k) (kh : k.Admits h) : h = k := by
  cases h with
  | lam params tys =>
    cases k with
    | lam params' tys' =>
      obtain ⟨rfl, tys⟩ := hk
      rw [tys.antisymm kh.2]
    | _ => cases hk
  | _ => exact hk

theorem Admits.refl (e : Expr Mark) : e.Admits e := by
  induction e using Expr.induct with
  | node e ih =>
    exact .node (Head.Admits.refl _) rfl (Ty.Admits.refl _) (List.forall₂_same.mpr ih)

/-- Trees that are instances of one another are equal. -/
theorem Admits.antisymm (h : e.Admits t) (k : t.Admits e) : e = t := by
  induction e using Expr.induct generalizing t with
  | node e ih =>
    obtain ⟨head, span, ty, parts⟩ := h
    obtain ⟨head', _, ty', parts'⟩ := k
    have mark : e.mark = t.mark := congrArg₂ Mark.mk span (ty.antisymm ty')
    have same : e.children = t.children :=
      forall₂_antisymm (fun d hd _ => ih d hd) parts parts'
    exact eq_of_parts (head.antisymm head') mark same

/-- The second tree is the first with its open types filled in, form by form. -/
inductive Filled : Expr Mark → Expr Mark → Prop
  | var {v m k} : m.ty.Admits k.ty → Filled (.var v m) (.var v k)
  | lit {l m k} : m.ty.Admits k.ty → Filled (.lit l m) (.lit l k)
  | tuple {es ds m k} : List.Forall₂ Admits es ds → m.ty.Admits k.ty →
      Filled (.tuple es m) (.tuple ds k)
  | component {e d i n m k} : e.Admits d → m.ty.Admits k.ty →
      Filled (.component e i n m) (.component d i n k)
  | record {s m k} {fs gs : List (String × Expr Mark)} : fs.map (·.1) = gs.map (·.1) →
      List.Forall₂ Admits (fs.map (·.2)) (gs.map (·.2)) → m.ty.Admits k.ty →
      Filled (.record s fs m) (.record s gs k)
  | field {e d s n m k} : e.Admits d → m.ty.Admits k.ty → Filled (.field e s n m) (.field d s n k)
  | inject {n c e d m k} : e.Admits d → m.ty.Admits k.ty →
      Filled (.inject n c e m) (.inject n c d k)
  | switch {e d n m k} {fs gs : List (String × Expr Mark)} : e.Admits d →
      fs.map (·.1) = gs.map (·.1) → List.Forall₂ Admits (fs.map (·.2)) (gs.map (·.2)) →
      m.ty.Admits k.ty → Filled (.switch e n fs m) (.switch d n gs k)
  | op {o m k} : m.ty.Admits k.ty → Filled (.op o m) (.op o k)
  | app {f g es ds m k} : f.Admits g → List.Forall₂ Admits es ds → m.ty.Admits k.ty →
      Filled (.app f es m) (.app g ds k)
  | lam {ps ts us e d m k} : Ty.AdmitsAll ts us → e.Admits d → m.ty.Admits k.ty →
      Filled (.lam ps ts e m) (.lam ps us d k)
  | default {es ds i j c d m k} : List.Forall₂ Admits es ds → i.Admits j → c.Admits d →
      m.ty.Admits k.ty → Filled (.default es i c m) (.default ds j d k)
  | raise {x m k} : m.ty.Admits k.ty → Filled (.raise x m) (.raise x k)
  | rescue {e d x h g m k} : e.Admits d → h.Admits g → m.ty.Admits k.ty →
      Filled (.rescue e x h m) (.rescue d x g k)
  | force {e d m k} : e.Admits d → m.ty.Admits k.ty → Filled (.force e m) (.force d k)
  | array {es ds m k} : List.Forall₂ Admits es ds → m.ty.Admits k.ty →
      Filled (.array es m) (.array ds k)
  | ite {c d a b e f m k} : c.Admits d → a.Admits b → e.Admits f → m.ty.Admits k.ty →
      Filled (.ite c a e m) (.ite d b f k)
  | assert {e d m k} : e.Admits d → m.ty.Admits k.ty → Filled (.assert e m) (.assert d k)
  | location {l m k} : m.ty.Admits k.ty → Filled (.location l m) (.location l k)

/-- The first tree of two determines the form of the second. -/
theorem Admits.filled (h : e.Admits t) : e.Filled t := by
  obtain ⟨head, _, mark, parts⟩ := h
  cases e <;> cases t <;> try (cases head; done)
  case var.var => cases head; exact .var mark
  case lit.lit => cases head; exact .lit mark
  case tuple.tuple => exact .tuple parts mark
  case component.component =>
    cases head
    exact .component (List.forall₂_cons.mp parts).1 mark
  case record.record =>
    obtain ⟨rfl, names⟩ := Head.record.inj head
    exact .record names parts mark
  case field.field =>
    cases head
    exact .field (List.forall₂_cons.mp parts).1 mark
  case inject.inject =>
    cases head
    exact .inject (List.forall₂_cons.mp parts).1 mark
  case switch.switch =>
    obtain ⟨rfl, names⟩ := Head.switch.inj head
    obtain ⟨part, cases⟩ := List.forall₂_cons.mp parts
    exact .switch part names cases mark
  case op.op => cases head; exact .op mark
  case app.app =>
    obtain ⟨part, args⟩ := List.forall₂_cons.mp parts
    exact .app part args mark
  case lam.lam =>
    obtain ⟨rfl, tys⟩ := head
    exact .lam tys (List.forall₂_cons.mp parts).1 mark
  case default.default =>
    have length := Head.default.inj head
    have first := List.forall₂_take_append _ _ _ parts
    have last := List.forall₂_drop_append _ _ _ parts
    rw [← length, children, List.take_left] at first
    rw [← length, children, List.drop_left] at last
    obtain ⟨just, last⟩ := List.forall₂_cons.mp last
    exact .default first just (List.forall₂_cons.mp last).1 mark
  case raise.raise => cases head; exact .raise mark
  case rescue.rescue =>
    cases head
    obtain ⟨body, rest⟩ := List.forall₂_cons.mp parts
    exact .rescue body (List.forall₂_cons.mp rest).1 mark
  case force.force => exact .force (List.forall₂_cons.mp parts).1 mark
  case array.array => exact .array parts mark
  case ite.ite =>
    obtain ⟨cond, rest⟩ := List.forall₂_cons.mp parts
    obtain ⟨yes, rest⟩ := List.forall₂_cons.mp rest
    exact .ite cond yes (List.forall₂_cons.mp rest).1 mark
  case assert.assert => exact .assert (List.forall₂_cons.mp parts).1 mark
  case location.location => cases head; exact .location mark

theorem namesAscend_eq (h : e.head.Admits t.head) :
    e.namesAscend = t.namesAscend := by
  cases e <;> cases t <;> simp_all [head, Head.Admits, namesAscend]

theorem Admits.ordered (h : e.Admits t) (ordered : e.Ordered) : t.Ordered := by
  induction e using Expr.induct generalizing t with
  | node e ih =>
    obtain ⟨head, _, _, parts⟩ := h
    obtain ⟨ascend, below⟩ := ordered_iff.mp ordered
    refine ordered_iff.mpr ⟨namesAscend_eq head ▸ ascend, fun d hd => ?_⟩
    exact forall_of_forall₂ parts (fun c hc d admits => ih c hc admits (below c hc)) d hd

end Instance

end Ordinance.Expr
