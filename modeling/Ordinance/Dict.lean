namespace Ordinance

/-- A finite map as the list of its entries in ascending order of key. The order is part of the
type, so two maps with the same entries are equal. -/
structure Dict (κ α : Type) [Ord κ] where
  entries : List (κ × α)
  ascending : entries.Pairwise fun a b => compare a.1 b.1 = .lt

namespace Dict

variable {κ α β : Type} [Ord κ]

/-- The entries with `k` bound to `v`: in place of the old binding, or where the order wants it. -/
def insertEntry (k : κ) (v : α) : List (κ × α) → List (κ × α)
  | [] => [(k, v)]
  | e :: es =>
      match compare k e.1 with
      | .lt => (k, v) :: e :: es
      | .eq => (k, v) :: es
      | .gt => e :: insertEntry k v es

theorem mem_insertEntry {k : κ} {v : α} {e : κ × α} {es : List (κ × α)}
    (h : e ∈ insertEntry k v es) : e = (k, v) ∨ e ∈ es := by
  induction es with
  | nil => simpa [insertEntry] using h
  | cons d ds ih =>
    rw [insertEntry] at h
    split at h
    · simpa using h
    · rcases List.mem_cons.mp h with h | h
      · exact .inl h
      · exact .inr (List.mem_cons_of_mem _ h)
    · rcases List.mem_cons.mp h with h | h
      · exact .inr (h ▸ List.mem_cons_self)
      · exact (ih h).imp_right (List.mem_cons_of_mem _)

theorem ascending_insertEntry [Std.TransOrd κ] [Std.LawfulEqOrd κ] (k : κ) (v : α)
    {es : List (κ × α)} (h : es.Pairwise fun a b => compare a.1 b.1 = .lt) :
    (insertEntry k v es).Pairwise fun a b => compare a.1 b.1 = .lt := by
  induction es with
  | nil => simp [insertEntry]
  | cons e es ih =>
    obtain ⟨head, tail⟩ := List.pairwise_cons.mp h
    rw [insertEntry]
    split
    next lt =>
      refine List.pairwise_cons.mpr ⟨fun d hd => ?_, h⟩
      rcases List.mem_cons.mp hd with rfl | hd
      · exact lt
      · exact Std.TransCmp.lt_trans lt (head d hd)
    next eq =>
      have eq := Std.LawfulEqCmp.eq_of_compare eq
      exact List.pairwise_cons.mpr ⟨fun d hd => eq ▸ head d hd, tail⟩
    next gt =>
      refine List.pairwise_cons.mpr ⟨fun d hd => ?_, ih tail⟩
      rcases mem_insertEntry hd with rfl | hd
      · exact Std.OrientedCmp.lt_of_gt gt
      · exact head d hd

instance [DecidableEq κ] [DecidableEq α] : DecidableEq (Dict κ α)
  | ⟨a, _⟩, ⟨b, _⟩ => decidable_of_iff (a = b) (by simp)

def empty : Dict κ α := ⟨[], .nil⟩

instance : EmptyCollection (Dict κ α) := ⟨empty⟩

instance : Inhabited (Dict κ α) := ⟨∅⟩

def insert [Std.TransOrd κ] [Std.LawfulEqOrd κ] (d : Dict κ α) (k : κ) (v : α) : Dict κ α :=
  ⟨insertEntry k v d.entries, ascending_insertEntry k v d.ascending⟩

/-- Later pairs override earlier ones. -/
def insertMany [Std.TransOrd κ] [Std.LawfulEqOrd κ] (d : Dict κ α) (kvs : List (κ × α)) :
    Dict κ α :=
  kvs.foldl (fun d kv => d.insert kv.1 kv.2) d

def ofList [Std.TransOrd κ] [Std.LawfulEqOrd κ] (kvs : List (κ × α)) : Dict κ α :=
  insertMany ∅ kvs

def lookup? (k : κ) : List (κ × α) → Option α
  | [] => none
  | e :: es => if compare k e.1 = .eq then some e.2 else lookup? k es

def get? (d : Dict κ α) (k : κ) : Option α := lookup? k d.entries

def size (d : Dict κ α) : Nat := d.entries.length

def keys (d : Dict κ α) : List κ := d.entries.map (·.1)

def mapValues (f : α → β) (d : Dict κ α) : Dict κ β where
  entries := d.entries.map fun e => (e.1, f e.2)
  ascending := List.pairwise_map.mpr d.ascending

end Dict

end Ordinance
