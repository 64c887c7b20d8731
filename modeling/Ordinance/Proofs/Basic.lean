import Mathlib.Data.List.Forall2

/-! Lists side by side, and results that were computed. -/

namespace Ordinance

variable {α β γ δ : Type} {R : α → β → Prop} {xs : List α} {ys : List β}

theorem forall₂_imp_mem {S : α → β → Prop} (h : List.Forall₂ R xs ys)
    (step : ∀ x ∈ xs, ∀ y, R x y → S x y) : List.Forall₂ S xs ys :=
  ((List.forall₂_and_left xs ys).mpr ⟨step, h⟩).imp fun _ y both => both.1 y both.2

theorem forall_of_forall₂ {P : β → Prop} (h : List.Forall₂ R xs ys)
    (step : ∀ x ∈ xs, ∀ y, R x y → P y) : ∀ y ∈ ys, P y := by
  induction h with
  | nil => simp
  | cons head _ ih =>
    obtain ⟨here, rest⟩ := List.forall_mem_cons.mp step
    exact List.forall_mem_cons.mpr ⟨here _ head, ih rest⟩

theorem forall_of_forall₂_const {S : α → γ → Prop} {c : γ}
    (h : List.Forall₂ S xs (ys.map fun _ => c)) : ∀ x ∈ xs, S x c :=
  forall_of_forall₂ (List.forall₂_map_right_iff.mp h).flip fun _ _ _ hx => hx

theorem forall₂_antisymm {R : α → α → Prop} {ys : List α}
    (antisymm : ∀ x ∈ xs, ∀ y, R x y → R y x → x = y) (h : List.Forall₂ R xs ys)
    (k : List.Forall₂ R ys xs) : xs = ys := by
  have there : List.Forall₂ (fun x y => R y x → x = y) xs ys := forall₂_imp_mem h antisymm
  have back : List.Forall₂ (fun x y => R y x) xs ys := k.flip
  have eqs : List.Forall₂ (· = ·) xs ys := there.mp (fun _ _ eq hr => eq hr) back
  rwa [List.forall₂_eq_eq_eq] at eqs

section Map

variable {f : α → γ} {g : β → γ}

theorem map_eq_iff_forall₂ : xs.map f = ys.map g ↔ List.Forall₂ (fun x y => f x = g y) xs ys := by
  rw [← List.forall₂_eq_eq_eq, List.forall₂_map_left_iff, List.forall₂_map_right_iff]

theorem map_eq_iff_zip :
    xs.map f = ys.map g ↔ xs.length = ys.length ∧ ∀ x ∈ xs.zip ys, f x.1 = g x.2 := by
  rw [map_eq_iff_forall₂, List.forall₂_iff_zip]
  simp only [Prod.forall]

/-- Elements that `f` takes for one are mapped alike. -/
theorem map_eq_of_map_eq {ys : List α} {g h : α → δ} (same : xs.map f = ys.map f)
    (eq : ∀ x y, f x = f y → g x = h y) : xs.map g = ys.map h :=
  map_eq_iff_forall₂.mpr ((map_eq_iff_forall₂.mp same).imp eq)

theorem flatMap_eq_of_forall₂ {f : α → List γ} {g : β → List γ} (h : List.Forall₂ R xs ys)
    (eq : ∀ x ∈ xs, ∀ y, R x y → f x = g y) : xs.flatMap f = ys.flatMap g := by
  rw [List.flatMap_def, List.flatMap_def, map_eq_iff_forall₂.mpr (forall₂_imp_mem h eq)]

end Map

section Zip

theorem exists_mem_zip (length : xs.length = ys.length) {x : α} (hx : x ∈ xs) :
    ∃ y, (x, y) ∈ xs.zip ys := by
  obtain ⟨i, hi, rfl⟩ := List.getElem_of_mem hx
  have lt : i < (xs.zip ys).length := by simpa [← length] using hi
  exact ⟨ys[i], by simpa using List.getElem_mem lt⟩

theorem forall_zip_of_forall₂ {P : α → γ → Prop} {zs : List γ} (h : List.Forall₂ R xs ys)
    (all : ∀ y ∈ ys.zip zs, ∀ x, R x y.1 → P x y.2) : ∀ x ∈ xs.zip zs, P x.1 x.2 := by
  induction h generalizing zs with
  | nil => simp
  | cons head _ ih =>
    cases zs with
    | nil => simp
    | cons z zs =>
      obtain ⟨here, rest⟩ := List.forall_mem_cons.mp all
      exact List.forall_mem_cons.mpr ⟨here _ head, ih rest⟩

theorem forall₂_zip_swap {S : γ → δ → Prop} {zs : List γ} {ws : List δ}
    (h : List.Forall₂ R xs ys) (k : List.Forall₂ S zs ws) :
    List.Forall₂ (fun x y => R x.1 y.2 ∧ S x.2 y.1) (xs.zip zs) (ws.zip ys) := by
  induction h generalizing zs ws with
  | nil => simp
  | cons head _ ih =>
    cases k with
    | nil => simp
    | cons head' tail' => exact .cons ⟨head, head'⟩ (ih tail')

end Zip

section Results

variable {ε σ : Type} {a : α} {p : α → Bool}

theorem toOption_eq_some {x : Except ε α} : x.toOption = some a ↔ x = .ok a := by
  cases x <;> simp [Except.toOption]

theorem exists_ok {x : Except ε α} (h : x.toOption.any p = true) : ∃ a, x = .ok a ∧ p a = true := by
  obtain ⟨a, eq, ha⟩ := (Option.any_eq_true _ _).mp h
  exact ⟨a, toOption_eq_some.mp eq, ha⟩

theorem exists_run {x : Except ε α × σ} (h : x.1.toOption.any p = true) :
    ∃ a s, x = (.ok a, s) ∧ p a = true := by
  obtain ⟨a, eq, ha⟩ := exists_ok h
  exact ⟨a, x.2, Prod.ext eq rfl, ha⟩

end Results

end Ordinance
