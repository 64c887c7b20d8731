import Ordinance.Proofs.Basic
import Ordinance.Ty.Basic

namespace Ordinance

namespace Ty

/-- Induction over types, with a hypothesis for every part of a list of parts. -/
@[elab_as_elim] theorem inductParts {P : Ty → Prop} (base : ∀ b, P (base b))
    (arrow : ∀ ps r, (∀ p ∈ ps, P p) → P r → P (arrow ps r))
    (tuple : ∀ ts, (∀ t ∈ ts, P t) → P (tuple ts)) (struct : ∀ n, P (struct n))
    (enum : ∀ n, P (enum n)) (option : ∀ t, P t → P (option t)) (array : ∀ t, P t → P (array t))
    (any : P any) (t : Ty) : P t :=
  @Ty.rec P (fun ts => ∀ t ∈ ts, P t) base arrow tuple struct enum option array any
    (List.forall_mem_nil P) (fun _ _ ht hts => List.forall_mem_cons.mpr ⟨ht, hts⟩) t

mutual

/-- The type and all its parts, down to the names and holes: each after its own parts, and the
result of a function after the parameters. -/
def nodes : Ty → List Ty
  | base b => [base b]
  | arrow ps r => nodesAll ps ++ nodes r ++ [arrow ps r]
  | tuple ts => nodesAll ts ++ [tuple ts]
  | struct n => [struct n]
  | enum n => [enum n]
  | option t => nodes t ++ [option t]
  | array t => nodes t ++ [array t]
  | any => [any]

def nodesAll : List Ty → List Ty
  | [] => []
  | t :: ts => nodes t ++ nodesAll ts

end

theorem nodesAll_eq_flatMap (ts : List Ty) : nodesAll ts = ts.flatMap nodes := by
  induction ts with
  | nil => rfl
  | cons t ts ih => rw [nodesAll, ih, List.flatMap_cons]

mutual

/-- The second type is the first with its open places filled in, each on its own. -/
def Admits : Ty → Ty → Prop
  | any, _ => True
  | base a, base b => a = b
  | arrow ps r, arrow qs s => AdmitsAll ps qs ∧ Admits r s
  | tuple ts, tuple us => AdmitsAll ts us
  | struct a, struct b => a = b
  | enum a, enum b => a = b
  | option t, option u => Admits t u
  | array t, array u => Admits t u
  | _, _ => False

def AdmitsAll : List Ty → List Ty → Prop
  | [], [] => True
  | t :: ts, u :: us => Admits t u ∧ AdmitsAll ts us
  | _, _ => False

end

theorem admitsAll_iff {ts us : List Ty} : AdmitsAll ts us ↔ List.Forall₂ Admits ts us := by
  induction ts generalizing us with
  | nil =>
    cases us with
    | nil => exact ⟨fun _ => .nil, fun _ => trivial⟩
    | cons u us => exact ⟨False.elim, fun h => by cases h⟩
  | cons t ts ih =>
    cases us with
    | nil => exact ⟨False.elim, fun h => by cases h⟩
    | cons u us => exact (and_congr_right fun _ => ih).trans List.forall₂_cons.symm

theorem AdmitsAll.length_eq {ts us : List Ty} (h : AdmitsAll ts us) : ts.length = us.length :=
  (admitsAll_iff.mp h).length_eq

@[simp] theorem any_admits (t : Ty) : Admits any t := trivial

theorem Admits.refl (t : Ty) : Admits t t := by
  induction t using Ty.inductParts with
  | arrow ps r ihp ihr => exact ⟨admitsAll_iff.mpr (List.forall₂_same.mpr ihp), ihr⟩
  | tuple ts ih => exact admitsAll_iff.mpr (List.forall₂_same.mpr ih)
  | option t ih => exact ih
  | array t ih => exact ih
  | any => exact any_admits any
  | _ => rfl

theorem AdmitsAll.refl (ts : List Ty) : AdmitsAll ts ts :=
  admitsAll_iff.mpr (List.forall₂_same.mpr fun t _ => Admits.refl t)

theorem admits_of_isAny {t : Ty} (h : t.isAny = true) (u : Ty) : Admits t u := by
  cases t <;> simp_all [isAny]

theorem allConcrete_iff {ts : List Ty} : allConcrete ts = true ↔ ∀ t ∈ ts, t.isConcrete = true := by
  induction ts with
  | nil => simp [allConcrete]
  | cons t ts ih => simp [allConcrete, ih]

private theorem eq_of_admitsAll {ts us : List Ty} (concrete : allConcrete ts = true)
    (ih : ∀ t ∈ ts, ∀ {u}, t.isConcrete = true → Admits t u → t = u) (h : AdmitsAll ts us) :
    ts = us := by
  have eqs : List.Forall₂ Eq ts us := forall₂_imp_mem (admitsAll_iff.mp h) fun t ht u admits =>
    ih t ht (allConcrete_iff.mp concrete t ht) admits
  rwa [List.forall₂_eq_eq_eq] at eqs

/-- A type without open places has no instance but itself. -/
theorem Admits.eq_of_isConcrete {t u : Ty} (h : Admits t u) (concrete : t.isConcrete = true) :
    t = u := by
  induction t using Ty.inductParts generalizing u with
  | any => cases concrete
  | arrow ps r ihp ihr =>
    obtain ⟨hps, hr⟩ := Bool.and_eq_true_iff.mp concrete
    cases u with
    | arrow qs s =>
      rw [ihr h.2 hr, eq_of_admitsAll hps (fun p hp _ c a => ihp p hp a c) h.1]
    | _ => cases h
  | tuple ts ih =>
    cases u with
    | tuple us => rw [eq_of_admitsAll concrete (fun t ht _ c a => ih t ht a c) h]
    | _ => cases h
  | option t ih =>
    cases u with
    | option u => rw [ih h concrete]
    | _ => cases h
  | array t ih =>
    cases u with
    | array u => rw [ih h concrete]
    | _ => cases h
  | base b =>
    cases u with
    | base c => exact congrArg base h
    | _ => cases h
  | struct n =>
    cases u with
    | struct n' => exact congrArg struct h
    | _ => cases h
  | enum n =>
    cases u with
    | enum n' => exact congrArg enum h
    | _ => cases h

theorem AdmitsAll.eq_of_concrete {ts us : List Ty} (h : AdmitsAll ts us)
    (concrete : ∀ t ∈ ts, t.isConcrete = true) : ts = us :=
  eq_of_admitsAll (allConcrete_iff.mpr concrete) (fun _ _ _ c a => a.eq_of_isConcrete c) h

private theorem admitsAll_trans_of {ts us ws : List Ty}
    (ih : ∀ t ∈ ts, ∀ {u w}, Admits t u → Admits u w → Admits t w) (h : AdmitsAll ts us)
    (k : AdmitsAll us ws) : AdmitsAll ts ws := by
  induction ts generalizing us ws with
  | nil =>
    cases us with
    | nil => exact k
    | cons => cases h
  | cons t ts tail =>
    obtain ⟨here, rest⟩ := List.forall_mem_cons.mp ih
    cases us with
    | nil => cases h
    | cons u us =>
      cases ws with
      | nil => cases k
      | cons w ws => exact ⟨here h.1 k.1, tail rest h.2 k.2⟩

theorem Admits.trans {t u w : Ty} (h : Admits t u) (k : Admits u w) : Admits t w := by
  induction t using Ty.inductParts generalizing u w with
  | any => exact any_admits w
  | arrow ps r ihp ihr =>
    cases u with
    | arrow qs s =>
      cases w with
      | arrow os o => exact ⟨admitsAll_trans_of (fun p hp _ _ => ihp p hp) h.1 k.1, ihr h.2 k.2⟩
      | _ => cases k
    | _ => cases h
  | tuple ts ih =>
    cases u with
    | tuple us =>
      cases w with
      | tuple ws => exact admitsAll_trans_of (fun t ht _ _ => ih t ht) h k
      | _ => cases k
    | _ => cases h
  | option t ih =>
    cases u with
    | option u =>
      cases w with
      | option w => exact ih h k
      | _ => cases k
    | _ => cases h
  | array t ih =>
    cases u with
    | array u =>
      cases w with
      | array w => exact ih h k
      | _ => cases k
    | _ => cases h
  | _ =>
    rw [h.eq_of_isConcrete rfl]
    exact k

private theorem admitsAll_antisymm_of {ts us : List Ty}
    (ih : ∀ t ∈ ts, ∀ u, Admits t u → Admits u t → t = u) (h : AdmitsAll ts us)
    (k : AdmitsAll us ts) : ts = us :=
  forall₂_antisymm ih (admitsAll_iff.mp h) (admitsAll_iff.mp k)

theorem Admits.antisymm {t u : Ty} (h : Admits t u) (k : Admits u t) : t = u := by
  induction t using Ty.inductParts generalizing u with
  | any =>
    cases u with
    | any => rfl
    | _ => cases k
  | arrow ps r ihp ihr =>
    cases u with
    | arrow qs s =>
      rw [admitsAll_antisymm_of (fun p hp _ => ihp p hp) h.1 k.1, ihr h.2 k.2]
    | _ => cases h
  | tuple ts ih =>
    cases u with
    | tuple us => rw [admitsAll_antisymm_of (fun t ht _ => ih t ht) h k]
    | _ => cases h
  | option t ih =>
    cases u with
    | option u => rw [ih h k]
    | _ => cases h
  | array t ih =>
    cases u with
    | array u => rw [ih h k]
    | _ => cases h
  | _ => exact h.eq_of_isConcrete rfl

theorem AdmitsAll.antisymm {ts us : List Ty} (h : AdmitsAll ts us) (k : AdmitsAll us ts) :
    ts = us :=
  admitsAll_antisymm_of (fun _ _ _ => Admits.antisymm) h k

mutual

/-- Whether the second type is an instance of the first. -/
def admits : Ty → Ty → Bool
  | any, _ => true
  | base a, base b => a == b
  | arrow ps r, arrow qs s => admitsAll ps qs && admits r s
  | tuple ts, tuple us => admitsAll ts us
  | struct a, struct b => a == b
  | enum a, enum b => a == b
  | option t, option u => admits t u
  | array t, array u => admits t u
  | _, _ => false

def admitsAll : List Ty → List Ty → Bool
  | [], [] => true
  | t :: ts, u :: us => admits t u && admitsAll ts us
  | _, _ => false

end

private theorem admitsAll_eq_true_of {ts us : List Ty}
    (ih : ∀ t ∈ ts, ∀ {u}, admits t u = true ↔ Admits t u) :
    admitsAll ts us = true ↔ AdmitsAll ts us := by
  induction ts generalizing us with
  | nil => cases us <;> simp [admitsAll, AdmitsAll]
  | cons t ts tail =>
    obtain ⟨here, rest⟩ := List.forall_mem_cons.mp ih
    cases us <;> simp [admitsAll, AdmitsAll, here, tail rest]

theorem admits_eq_true {t u : Ty} : admits t u = true ↔ Admits t u := by
  induction t using Ty.inductParts generalizing u with
  | arrow ps r ihp ihr =>
    cases u <;> simp [admits, Admits, ihr, admitsAll_eq_true_of fun p hp _ => ihp p hp]
  | tuple ts ih => cases u <;> simp [admits, Admits, admitsAll_eq_true_of fun t ht _ => ih t ht]
  | option t ih => cases u <;> simp [admits, Admits, ih]
  | array t ih => cases u <;> simp [admits, Admits, ih]
  | _ => cases u <;> simp [admits, Admits]

instance (t u : Ty) : Decidable (Admits t u) := decidable_of_iff _ admits_eq_true

end Ty

end Ordinance
