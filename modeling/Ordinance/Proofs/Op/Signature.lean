import Ordinance.Proofs.Typing.Rules

namespace Ordinance.Op

/-- The types that an operator takes and returns. -/
inductive Takes : Op → List Ty → Ty → Prop
  | plain {o : Op} {params : List BaseTy} {result : BaseTy} :
      o.signature = some (plain params result) → params.length = o.arity →
      Takes o (params.map .base) (.base result)
  | eq (t : Ty) : Takes .eq [t, t] .bool
  | ne (t : Ty) : Takes .ne [t, t] .bool
  | log (e : LogEvent) (t : Ty) : Takes (.log e) [t] t
  | length (t : Ty) : Takes .length [.array t] .int
  | concat (t : Ty) : Takes .concat [.array t, .array t] (.array t)
  | map (t u : Ty) : Takes .map [.arrow [t] u, .array t] (.array u)
  | filter (t : Ty) : Takes .filter [.arrow [t] .bool, .array t] (.array t)
  | fold (t u : Ty) : Takes .fold [.arrow [u, t] u, u, .array t] u
  | reduce (t : Ty) : Takes .reduce [.arrow [t, t] t, t, .array t] t
  | resolveDefault (t : Ty) : Takes .resolveDefault
      [.array (.option t), .arrow [.unit] (.option .bool), .arrow [.unit] (.option t)] (.option t)

variable {o : Op} {t : Ty} {shapes : List (Shape Nat)} {types : Nat → Ty}

theorem Takes.length_eq {ts : List Ty} {r : Ty} (h : o.Takes ts r) : ts.length = o.arity := by
  cases h with
  | plain _ count => rw [List.length_map, count]
  | _ => rfl

theorem Solves.get (h : Solves shapes types) {i : Nat} {p : Shape Nat}
    (found : shapes[i]? = some p) (ne : p ≠ .any) : types i = .ofShape (p.map types) :=
  h (p, i) (List.mem_zipIdx_iff_getElem?.mpr found) ne

theorem hasTy_iff_of_signature (h : o.signature = some shapes) :
    o.HasTy t ↔ ∃ types, Solves shapes types ∧ t = types (shapes.length - 1) := by
  constructor
  · rintro ⟨shapes', types, eq, solves, rfl⟩
    obtain rfl : shapes = shapes' := by simpa [h] using eq
    exact ⟨types, solves, rfl⟩
  · rintro ⟨types, solves, rfl⟩
    exact ⟨shapes, types, h, solves, rfl⟩

section Plain

variable {params : List BaseTy} {result : BaseTy}

private theorem plain_types (h : Solves (plain params result) types) :
    types (params.length + 1) = .arrow (params.map .base) (.base result) := by
  have param {i : Nat} (lt : i < params.length) : types i = .base params[i] := by
    have found : (plain params result)[i]? = some (.base params[i]) := by
      rw [plain, List.getElem?_append_left] <;> simp [lt]
    exact h.get found nofun
  have last : types params.length = .base result :=
    h.get (p := .base result) (by simp [plain]) nofun
  have whole := h.get (i := params.length + 1) (p := .arrow (List.range params.length) params.length)
    (by simp [plain]) nofun
  rw [whole, Shape.map, last]
  refine congrArg (Ty.arrow · _) (List.ext_getElem (by simp) fun i hi _ => ?_)
  simpa using param (by simpa using hi)

private theorem solves_plain (params : List BaseTy) (result : BaseTy) :
    ∃ types, Solves (plain params result) types := by
  let whole : Ty := .arrow (params.map .base) (.base result)
  let types (i : Nat) : Ty := ((params.map Ty.base ++ [.base result, whole])[i]?).getD .any
  have param {i : Nat} (lt : i < params.length) : types i = .base params[i] := by
    simp only [types]
    rw [List.getElem?_append_left] <;> simp [lt]
  have last : types params.length = .base result := by simp [types]
  have all : types (params.length + 1) = whole := by simp [types]
  refine ⟨types, fun ⟨p, i⟩ hx _ => ?_⟩
  have found := List.mem_zipIdx_iff_getElem?.mp hx
  rcases Nat.lt_or_ge i params.length with lt | ge
  · rw [plain, List.getElem?_append_left (by simpa using lt)] at found
    obtain rfl : .base params[i] = p := by simpa [lt] using found
    exact param lt
  · obtain ⟨k, rfl⟩ := Nat.exists_eq_add_of_le ge
    rw [plain, List.getElem?_append_right (by simp)] at found
    match k with
    | 0 =>
      obtain rfl : .base result = p := by simpa using found
      exact last
    | 1 =>
      obtain rfl : .arrow (List.range params.length) params.length = p := by simpa using found
      refine all.trans ?_
      rw [Shape.map, last]
      refine congrArg (Ty.arrow · _) (List.ext_getElem (by simp) fun i hi _ => ?_)
      simpa using (param (by simpa using hi)).symm
    | k + 2 => simp at found

private theorem hasTy_iff_of_plain (h : o.signature = some (plain params result)) :
    o.HasTy t ↔ t = .arrow (params.map .base) (.base result) := by
  have length : (plain params result).length - 1 = params.length + 1 := by simp [plain]
  rw [hasTy_iff_of_signature h, length]
  constructor
  · rintro ⟨types, solves, rfl⟩
    exact plain_types solves
  · rintro rfl
    obtain ⟨types, solves⟩ := solves_plain params result
    exact ⟨types, solves, (plain_types solves).symm⟩

private theorem takes_of_plain (h : o.signature = some (plain params result))
    (count : params.length = o.arity) (typed : o.HasTy t) : ∃ ts r, t = .arrow ts r ∧ o.Takes ts r :=
  ⟨_, _, (hasTy_iff_of_plain h).mp typed, .plain h count⟩

theorem isHigherOrder_of_plain (h : o.signature = some (plain params result)) :
    (o.isHigherOrder || o == .resolveDefault) = false := by
  cases o with
  | map | filter | fold | reduce | resolveDefault => cases params <;> simp [signature, plain] at h
  | _ => rfl

end Plain

theorem HasTy.takes (h : o.HasTy t) : ∃ ts r, t = .arrow ts r ∧ o.Takes ts r := by
  have ⟨_, types, signature, solves, last⟩ := h
  cases o with
  | eq | ne | log | length | concat | map | filter | fold | reduce | resolveDefault =>
    cases signature
    simp only [Solves, List.zipIdx_cons, List.zipIdx_nil, List.forall_mem_cons, Shape.map] at solves
    simp [Ty.ofShape] at solves last
    simp only [solves] at last
    exact ⟨_, _, last, by constructor⟩
  | minus k | add k | sub k | mul k | div k | lt k | le k | gt k | ge k =>
    cases k <;> first | exact takes_of_plain rfl rfl h | cases signature
  | _ => exact takes_of_plain rfl rfl h

theorem Takes.hasTy {ts : List Ty} {r : Ty} (h : o.Takes ts r) : o.HasTy (.arrow ts r) := by
  let pick (ts : List Ty) (i : Nat) : Ty := (ts[i]?).getD .any
  cases h with
  | plain signature _ => exact (hasTy_iff_of_plain signature).mpr rfl
  | eq t | ne t =>
    refine ⟨_, pick [t, .bool, .arrow [t, t] .bool], rfl, ?_, rfl⟩
    simp [Solves, pick, Shape.map, Ty.ofShape]
  | log e =>
    refine ⟨_, pick [r, .arrow [r] r], rfl, ?_, rfl⟩
    simp [Solves, pick, Shape.map, Ty.ofShape]
  | length t =>
    refine ⟨_, pick [t, .array t, .int, .arrow [.array t] .int], rfl, ?_, rfl⟩
    simp [Solves, pick, Shape.map, Ty.ofShape]
  | concat t =>
    refine ⟨_, pick [t, .array t, .arrow [.array t, .array t] (.array t)], rfl, ?_, rfl⟩
    simp [Solves, pick, Shape.map, Ty.ofShape]
  | map t u =>
    refine ⟨_, pick [t, u, .arrow [t] u, .array t, .array u,
      .arrow [.arrow [t] u, .array t] (.array u)], rfl, ?_, rfl⟩
    simp [Solves, pick, Shape.map, Ty.ofShape]
  | filter t =>
    refine ⟨_, pick [t, .bool, .arrow [t] .bool, .array t,
      .arrow [.arrow [t] .bool, .array t] (.array t)], rfl, ?_, rfl⟩
    simp [Solves, pick, Shape.map, Ty.ofShape]
  | fold t =>
    refine ⟨_, pick [t, r, .arrow [r, t] r, .array t, .arrow [.arrow [r, t] r, r, .array t] r],
      rfl, ?_, rfl⟩
    simp [Solves, pick, Shape.map, Ty.ofShape]
  | reduce =>
    refine ⟨_, pick [r, .arrow [r, r] r, .array r, .arrow [.arrow [r, r] r, r, .array r] r],
      rfl, ?_, rfl⟩
    simp [Solves, pick, Shape.map, Ty.ofShape]
  | resolveDefault t =>
    refine ⟨_, pick [t, .option t, .array (.option t), .unit, .bool, .option .bool,
      .arrow [.unit] (.option .bool), .arrow [.unit] (.option t),
      .arrow [.array (.option t), .arrow [.unit] (.option .bool), .arrow [.unit] (.option t)]
        (.option t)], rfl, ?_, rfl⟩
    simp [Solves, pick, Shape.map, Ty.ofShape]

end Ordinance.Op
