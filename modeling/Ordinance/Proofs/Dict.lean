import Mathlib.Data.List.Forall2
import Mathlib.Data.List.Nodup
import Mathlib.Data.List.Perm.Subperm
import Ordinance.Dict

namespace Ordinance.Dict

variable {κ α β : Type} [Ord κ]

def values (d : Dict κ α) : List α := d.entries.map (·.2)

section Lookup

variable [Std.LawfulEqOrd κ]

@[simp] theorem lookup?_insertEntry [DecidableEq κ] (j k : κ) (v : α) (es : List (κ × α)) :
    lookup? j (insertEntry k v es) = if j = k then some v else lookup? j es := by
  induction es with
  | nil => simp [insertEntry, lookup?]
  | cons e es ih =>
    rw [insertEntry]
    split
    next => simp [lookup?]
    next eq =>
      have eq : k = e.1 := Std.LawfulEqCmp.eq_of_compare eq
      by_cases h : j = k <;> simp [lookup?, h, ← eq]
    next gt =>
      have ne : k ≠ e.1 := by
        rintro rfl
        simp at gt
      by_cases h : j = k
      · subst h
        simp [lookup?, ih, ne]
      · simp [lookup?, ih, h]

@[simp] theorem get?_insert [Std.TransOrd κ] [DecidableEq κ] (d : Dict κ α) (j k : κ) (v : α) :
    (d.insert k v).get? j = if j = k then some v else d.get? j :=
  lookup?_insertEntry j k v d.entries

theorem mem_of_lookup? {k : κ} {v : α} {es : List (κ × α)} (h : lookup? k es = some v) :
    (k, v) ∈ es := by
  induction es with
  | nil => simp [lookup?] at h
  | cons e es ih =>
    rw [lookup?] at h
    split at h
    next eq =>
      have eq : k = e.1 := Std.LawfulEqCmp.eq_of_compare eq
      have hv : e.2 = v := by simpa using h
      exact List.mem_cons.mpr (.inl (by rw [eq, ← hv]))
    next => exact List.mem_cons_of_mem _ (ih h)

theorem lookup?_of_mem {k : κ} {v : α} {es : List (κ × α)}
    (ascending : es.Pairwise fun a b => compare a.1 b.1 = .lt) (h : (k, v) ∈ es) :
    lookup? k es = some v := by
  induction es with
  | nil => simp at h
  | cons e es ih =>
    obtain ⟨head, tail⟩ := List.pairwise_cons.mp ascending
    rcases List.mem_cons.mp h with rfl | h
    · simp [lookup?]
    · have lt := head _ h
      have ne : k ≠ e.1 := by
        rintro rfl
        simp at lt
      simp [lookup?, ne, ih tail h]

theorem mem_entries_iff {d : Dict κ α} {k : κ} {v : α} :
    (k, v) ∈ d.entries ↔ d.get? k = some v :=
  ⟨lookup?_of_mem d.ascending, mem_of_lookup?⟩

theorem forall_get?_iff {d : Dict κ α} {P : κ → α → Prop} :
    (∀ k v, d.get? k = some v → P k v) ↔ ∀ e ∈ d.entries, P e.1 e.2 :=
  ⟨fun h e he => h e.1 e.2 (mem_entries_iff.mp he), fun h k v hv => h (k, v) (mem_entries_iff.mpr hv)⟩

theorem get?_isSome_iff {d : Dict κ α} {k : κ} : (d.get? k).isSome ↔ k ∈ d.keys := by
  constructor
  · intro h
    obtain ⟨v, hv⟩ := Option.isSome_iff_exists.mp h
    exact List.mem_map_of_mem (mem_entries_iff.mpr hv)
  · intro h
    obtain ⟨e, he, rfl⟩ := List.mem_map.mp h
    simp [mem_entries_iff.mp he]

/-- What is found under every name, in order, is what the map holds. -/
theorem forall₂_values {d : Dict κ α} {xs : List (κ × β)} {P : α → β → Prop}
    (names : xs.map (·.1) = d.keys) (h : ∀ x ∈ xs, ∃ a, d.get? x.1 = some a ∧ P a x.2) :
    List.Forall₂ P d.values (xs.map (·.2)) := by
  have lookup : ∀ e ∈ d.entries, d.get? e.1 = some e.2 := fun e he => mem_entries_iff.mp he
  rw [values]
  rw [keys] at names
  generalize d.entries = es at names lookup
  induction xs generalizing es with
  | nil =>
    rw [List.map_nil, eq_comm, List.map_eq_nil_iff] at names
    simp [names]
  | cons x xs ih =>
    cases es with
    | nil => simp at names
    | cons e es =>
      simp only [List.map_cons, List.cons.injEq] at names
      obtain ⟨here, rest⟩ := List.forall_mem_cons.mp lookup
      obtain ⟨⟨a, found, ha⟩, hs⟩ := List.forall_mem_cons.mp h
      obtain rfl : a = e.2 := by simpa [names.1, here] using found.symm
      exact .cons ha (ih hs es names.2 rest)

/-- What the map holds is found under its names, in order. -/
theorem exists_of_forall₂_values {d : Dict κ α} {names : List κ} {ys : List β} {P : α → β → Prop}
    (eq : names = d.keys) (h : List.Forall₂ P d.values ys) :
    ∀ z ∈ names.zip ys, ∃ a, d.get? z.1 = some a ∧ P a z.2 := by
  have pairs : List.Forall₂ (fun e y => P e.2 y) d.entries ys := List.forall₂_map_left_iff.mp h
  intro z hz
  rw [eq, keys, List.zip_map_left] at hz
  obtain ⟨x, hx, rfl⟩ := List.mem_map.mp hz
  have lookup : d.get? x.1.1 = some x.1.2 := mem_entries_iff.mp (List.of_mem_zip hx).1
  exact ⟨x.1.2, lookup, List.forall₂_zip pairs hx⟩

end Lookup

@[simp] theorem get?_empty (k : κ) : (∅ : Dict κ α).get? k = none := rfl

theorem keys_ascending (d : Dict κ α) : d.keys.Pairwise fun a b => compare a b = .lt :=
  List.pairwise_map.mpr d.ascending

/-- Names in order are all the keys as soon as they are keys and there are enough of them. -/
theorem eq_keys [Std.TransOrd κ] [Std.LawfulEqOrd κ] {names : List κ} {d : Dict κ α}
    (ascending : names.Pairwise fun a b => compare a b = .lt) (sub : names ⊆ d.keys)
    (length : names.length = d.size) : names = d.keys := by
  have nodup : names.Nodup := ascending.imp fun lt eq => by simp [eq] at lt
  have perm : names.Perm d.keys :=
    (nodup.subperm sub).perm_of_length_le (by simp [keys, length, size])
  refine perm.eq_of_pairwise (fun a b _ _ lt gt => ?_) ascending d.keys_ascending
  have := Std.OrientedCmp.gt_of_lt gt
  simp [lt] at this

/-- Maps in which the same is found under every key have the same entries. -/
theorem eq_of_get?_eq [Std.TransOrd κ] [Std.LawfulEqOrd κ] {d e : Dict κ α}
    (same : ∀ k, d.get? k = e.get? k) : d = e := by
  have nodup (c : Dict κ α) : c.entries.Nodup := c.ascending.imp fun lt eq => by simp [eq] at lt
  have perm : d.entries.Perm e.entries := by
    rw [List.perm_ext_iff_of_nodup (nodup d) (nodup e)]
    intro x
    rw [mem_entries_iff, mem_entries_iff, same]
  have entries : d.entries = e.entries := by
    refine perm.eq_of_pairwise (fun a b _ _ lt gt => ?_) d.ascending e.ascending
    have := Std.OrientedCmp.gt_of_lt gt
    simp [lt] at this
  cases d
  cases e
  simp_all

theorem insert_comm [Std.TransOrd κ] [Std.LawfulEqOrd κ] [DecidableEq κ] {j k : κ} (d : Dict κ α)
    (ne : j ≠ k) (v w : α) : (d.insert j v).insert k w = (d.insert k w).insert j v := by
  refine eq_of_get?_eq fun i => ?_
  simp only [get?_insert]
  split_ifs <;> simp_all

section InsertMany

variable [Std.TransOrd κ] [Std.LawfulEqOrd κ] [DecidableEq κ] {k : κ} {v : α}

theorem get?_insertMany_of_notMem {d : Dict κ α} {kvs : List (κ × α)} (h : k ∉ kvs.map (·.1)) :
    (d.insertMany kvs).get? k = d.get? k := by
  induction kvs generalizing d with
  | nil => rfl
  | cons kv kvs ih =>
    rw [List.map_cons, List.mem_cons, not_or] at h
    exact (ih h.2).trans (by simp [h.1])

theorem get?_insertMany_of_mem {d : Dict κ α} {kvs : List (κ × α)}
    (nodup : (kvs.map (·.1)).Nodup) (h : (k, v) ∈ kvs) : (d.insertMany kvs).get? k = some v := by
  induction kvs generalizing d with
  | nil => cases h
  | cons kv kvs ih =>
    obtain ⟨new, nodup⟩ := List.nodup_cons.mp nodup
    rcases List.mem_cons.mp h with rfl | h
    · exact (get?_insertMany_of_notMem new).trans (by simp)
    · exact ih nodup h

theorem get?_insertMany_congr {d d' : Dict κ α} {kvs : List (κ × α)}
    (h : k ∉ kvs.map (·.1) → d'.get? k = d.get? k) :
    (d'.insertMany kvs).get? k = (d.insertMany kvs).get? k := by
  induction kvs generalizing d d' with
  | nil => exact h (by simp)
  | cons kv kvs ih =>
    refine ih fun later => ?_
    rw [get?_insert, get?_insert]
    split
    next => rfl
    next other => exact h (by simpa [other] using later)

end InsertMany

section OfList

theorem insertEntry_of_lt [Std.TransOrd κ] {k : κ} {v : α} {es : List (κ × α)}
    (h : ∀ e ∈ es, compare e.1 k = .lt) : insertEntry k v es = es ++ [(k, v)] := by
  induction es with
  | nil => rfl
  | cons e es ih =>
    obtain ⟨head, tail⟩ := List.forall_mem_cons.mp h
    have gt : compare k e.1 = .gt := Std.OrientedCmp.gt_of_lt head
    simp [insertEntry, gt, ih tail]

variable [Std.TransOrd κ] [Std.LawfulEqOrd κ]

theorem entries_insertMany {d : Dict κ α} {es : List (κ × α)}
    (ascending : (d.entries ++ es).Pairwise fun a b => compare a.1 b.1 = .lt) :
    (d.insertMany es).entries = d.entries ++ es := by
  induction es generalizing d with
  | nil => simp [insertMany]
  | cons e es ih =>
    have before : ∀ x ∈ d.entries, compare x.1 e.1 = .lt := fun x hx =>
      (List.pairwise_append.mp ascending).2.2 x hx e List.mem_cons_self
    have entries : (d.insert e.1 e.2).entries = d.entries ++ [e] := insertEntry_of_lt before
    have rest := ih (d := d.insert e.1 e.2) (by rw [entries]; simpa using ascending)
    rw [entries, List.append_assoc] at rest
    exact rest

/-- A list that is in order is the list of entries of the map that it makes. -/
theorem entries_ofList {es : List (κ × α)}
    (ascending : es.Pairwise fun a b => compare a.1 b.1 = .lt) : (ofList es).entries = es :=
  entries_insertMany (d := ∅) ascending

end OfList

section MapValues

variable (f : α → β)

theorem lookup?_map (k : κ) (es : List (κ × α)) :
    lookup? k (es.map fun e => (e.1, f e.2)) = (lookup? k es).map f := by
  induction es with
  | nil => rfl
  | cons e es ih =>
    simp only [List.map_cons, lookup?]
    split
    · rfl
    · exact ih

@[simp] theorem get?_mapValues (d : Dict κ α) (k : κ) : (d.mapValues f).get? k = (d.get? k).map f :=
  lookup?_map f k d.entries

@[simp] theorem keys_mapValues (d : Dict κ α) : (d.mapValues f).keys = d.keys := by
  simp [keys, mapValues]

@[simp] theorem values_mapValues (d : Dict κ α) : (d.mapValues f).values = d.values.map f := by
  simp [values, mapValues]

@[simp] theorem size_mapValues (d : Dict κ α) : (d.mapValues f).size = d.size := by
  simp [size, mapValues]

theorem mapValues_congr [Std.LawfulEqOrd κ] {f g : α → β} {d : Dict κ α}
    (h : ∀ k v, d.get? k = some v → f v = g v) : d.mapValues f = d.mapValues g := by
  have entries : d.entries.map (fun e => (e.1, f e.2)) = d.entries.map fun e => (e.1, g e.2) :=
    List.map_congr_left fun e he => by rw [h e.1 e.2 (mem_entries_iff.mp he)]
  simp only [mapValues, entries]

@[simp] theorem mapValues_empty : (∅ : Dict κ α).mapValues f = ∅ := rfl

theorem insertEntry_map (k : κ) (v : α) (es : List (κ × α)) :
    (insertEntry k v es).map (fun e => (e.1, f e.2)) =
      insertEntry k (f v) (es.map fun e => (e.1, f e.2)) := by
  induction es with
  | nil => rfl
  | cons e es ih =>
    simp only [insertEntry, List.map_cons]
    split <;> simp [ih]

variable [Std.TransOrd κ] [Std.LawfulEqOrd κ]

@[simp] theorem mapValues_insert (d : Dict κ α) (k : κ) (v : α) :
    (d.insert k v).mapValues f = (d.mapValues f).insert k (f v) := by
  simp [mapValues, insert, insertEntry_map]

theorem mapValues_insertMany (d : Dict κ α) (ks : List κ) (vs : List α) :
    (d.insertMany (ks.zip vs)).mapValues f = (d.mapValues f).insertMany (ks.zip (vs.map f)) := by
  induction ks generalizing d vs with
  | nil => rfl
  | cons k ks ih =>
    cases vs with
    | nil => rfl
    | cons v vs => simpa [insertMany] using ih (d.insert k v) vs

end MapValues

end Ordinance.Dict
