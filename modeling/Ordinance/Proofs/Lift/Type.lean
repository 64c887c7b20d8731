import Ordinance.Lift.Type
import Ordinance.Proofs.Dict
import Ordinance.Proofs.Ty.Instance

namespace Ordinance

namespace Ty

mutual

/-- The type with integers in its open places. -/
def ground : Ty → Ty
  | any => int
  | base b => base b
  | arrow ps r => arrow (groundAll ps) (ground r)
  | tuple ts => tuple (groundAll ts)
  | struct n => struct n
  | enum n => enum n
  | option t => option (ground t)
  | array t => array (ground t)

def groundAll : List Ty → List Ty
  | [] => []
  | t :: ts => ground t :: groundAll ts

end

@[simp] theorem groundAll_eq_map (ts : List Ty) : groundAll ts = ts.map ground := by
  induction ts with
  | nil => rfl
  | cons t ts ih => rw [groundAll, ih, List.map_cons]

@[simp] theorem liftAll_eq_map (ts : List Ty) : Ty.liftAll ts = ts.map lift := by
  induction ts with
  | nil => rfl
  | cons t ts ih => rw [liftAll, ih, List.map_cons]

/-- The type of lifted values. An open place does not make a difference to where a value is wrapped,
so any type may be put into it that is not unit. -/
def image (t : Ty) : Ty := t.ground.lift

theorem isThunk_iff {ps : List Ty} {r : Ty} : (arrow ps r).isThunk = true ↔ ps = [unit] := by
  constructor
  · intro h
    unfold isThunk at h
    split at h
    next eq =>
      cases eq
      rfl
    next => cases h
  · rintro rfl
    rfl

theorem lift_arrow {ps : List Ty} {r : Ty} (h : ps ≠ [unit]) :
    (arrow ps r).lift = arrow (ps.map lift) (option r.lift) := by
  rw [← liftAll_eq_map]
  exact lift.eq_2 ps r h

theorem ground_eq_unit {t : Ty} : t.ground = unit ↔ t = unit := by
  cases t <;> simp [ground]

private theorem map_ground_ne {ps : List Ty} (h : ps ≠ [unit]) : ps.map ground ≠ [unit] := by
  intro eq
  obtain ⟨t, rfl, ht⟩ := List.map_eq_singleton_iff.mp eq
  exact h (by rw [ground_eq_unit.mp ht])

@[simp] theorem image_base (b : BaseTy) : (base b).image = base b := rfl

@[simp] theorem image_struct (n : String) : (struct n).image = struct n := rfl

@[simp] theorem image_enum (n : String) : (enum n).image = enum n := rfl

@[simp] theorem image_thunk (r : Ty) : (arrow [unit] r).image = r.image := rfl

@[simp] theorem image_option (t : Ty) : (option t).image = option t.image := rfl

@[simp] theorem image_array (t : Ty) : (array t).image = array (option t.image) := rfl

@[simp] theorem image_tuple (ts : List Ty) : (tuple ts).image = tuple (ts.map image) := by
  simp [image, ground, lift, Function.comp_def]

theorem image_arrow {ps : List Ty} {r : Ty} (h : ps ≠ [unit]) :
    (arrow ps r).image = arrow (ps.map image) (option r.image) := by
  rw [image, ground, groundAll_eq_map, lift_arrow (map_ground_ne h), List.map_map]
  rfl

/-- Lifted types are open where the types are, so they admit the types of lifted values. -/
theorem lift_admits_image (t : Ty) : t.lift.Admits t.image := by
  induction t using Ty.inductParts with
  | any => simp [lift]
  | arrow ps r ihp ihr =>
    by_cases h : ps = [unit]
    · subst h
      exact ihr
    · rw [lift_arrow h, image_arrow h]
      refine ⟨admitsAll_iff.mpr ?_, ihr⟩
      rw [List.forall₂_map_left_iff, List.forall₂_map_right_iff]
      exact List.forall₂_same.mpr ihp
  | tuple ts ih =>
    rw [image_tuple, lift, liftAll_eq_map]
    refine admitsAll_iff.mpr ?_
    rw [List.forall₂_map_left_iff, List.forall₂_map_right_iff]
    exact List.forall₂_same.mpr ih
  | option t ih => exact ih
  | array t ih => exact ih
  | _ => exact .refl _

theorem ground_of_isConcrete {t : Ty} (h : t.isConcrete = true) : t.ground = t := by
  induction t using Ty.inductParts with
  | any => cases h
  | arrow ps r ihp ihr =>
    simp only [isConcrete, Bool.and_eq_true] at h
    have params : ps.map ground = ps :=
      (List.map_congr_left fun p hp => ihp p hp (allConcrete_iff.mp h.1 p hp)).trans ps.map_id
    rw [ground, ihr h.2, groundAll_eq_map, params]
  | tuple ts ih =>
    have parts : ts.map ground = ts :=
      (List.map_congr_left fun t ht => ih t ht (allConcrete_iff.mp h t ht)).trans ts.map_id
    rw [ground, groundAll_eq_map, parts]
  | option t ih => rw [ground, ih h]
  | array t ih => rw [ground, ih h]
  | _ => rfl

theorem image_of_isConcrete {t : Ty} (h : t.isConcrete = true) : t.image = t.lift := by
  rw [image, ground_of_isConcrete h]

end Ty

/-- No declared type is open. -/
def Decls.Concrete (d : Decls) : Prop :=
  (∀ name layout, d.structs.get? name = some layout → ∀ t ∈ layout.values, t.isConcrete = true) ∧
  ∀ name layout, d.enums.get? name = some layout → ∀ t ∈ layout.values, t.isConcrete = true

end Ordinance
