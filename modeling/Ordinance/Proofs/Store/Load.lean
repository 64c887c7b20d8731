import Ordinance.Proofs.Store.Termination

namespace Ordinance

namespace Shape

variable {α : Type}

/-- The parts in the order in which they are written: the result of a function comes last. -/
def written : Shape α → List α
  | arrow ps r => ps ++ [r]
  | p => p.parts

theorem mem_written {p : Shape α} {a : α} : a ∈ p.written ↔ a ∈ p.parts := by
  cases p <;> simp [written, parts, or_comm]

end Shape

namespace Store

variable {s t u : Store} {v : Class} {p : Shape Class} {place : Span}

section Spread

/-- The classes that a class is read off down to `depth` levels, each after those of its parts. -/
def spreadWithin (s : Store) : Nat → Class → List Class
  | 0, _ => []
  | depth + 1, v => (s.shape v).written.flatMap (s.spreadWithin depth) ++ [s.find v]

/-- The classes that a class is read off: one for every node of the type that it reads as. -/
def spread (s : Store) (v : Class) : List Class := s.spreadWithin s.size v

private theorem flatMap_written {f g : Class → List Class} {p : Shape Class}
    (h : ∀ c ∈ p.parts, f c = g c) : p.written.flatMap f = p.written.flatMap g :=
  List.flatMap_congr fun c hc => h c (Shape.mem_written.mp hc)

private theorem spreadWithin_eq {rank : Class → Nat}
    (descends : ∀ p u, s.PartOf p u → rank p < rank u) (depth more : Nat) (v : Class)
    (deep : rank v < depth) : s.spreadWithin (depth + more) v = s.spreadWithin depth v := by
  induction depth generalizing v with
  | zero => exact absurd deep (Nat.not_lt_zero _)
  | succ depth ih =>
    rw [Nat.succ_add, spreadWithin, spreadWithin]
    refine congrArg (· ++ _) (flatMap_written fun p hp => ih p ?_)
    exact Nat.lt_of_lt_of_le (descends p v ⟨p, hp, rfl⟩) (Nat.le_of_lt_succ deep)

theorem Wf.spread_eq (hs : s.Wf) (hv : v < s.size) :
    s.spread v = (s.shape v).written.flatMap s.spread ++ [s.find v] := by
  obtain ⟨rank, bounded, descends⟩ := hs.exists_rank
  obtain ⟨depth, hd⟩ := Nat.exists_eq_succ_of_ne_zero (Nat.ne_zero_of_lt hv)
  have deep := bounded v hv
  rw [spread, hd, spreadWithin]
  refine congrArg (· ++ _) (flatMap_written fun p hp => ?_)
  have below := descends p v ⟨p, hp, rfl⟩
  rw [spread, hd]
  exact (spreadWithin_eq descends depth 1 p (by omega)).symm

end Spread

section Extends

/-- `t` is `s` with more classes: those of `s` are what they were. -/
structure Extends (s t : Store) : Prop where
  size : s.size ≤ t.size
  find (v : Class) : t.find v = s.find v
  cell {v : Class} : v < s.size → t.cell v = s.cell v

theorem Wf.extends_alloc (hs : s.Wf) (p : Shape Class) (place : Span) :
    s.Extends (Store.alloc p place s).2 where
  size := by simp
  find := hs.find_alloc
  cell {v} hv := by
    have ne : s.find v ≠ s.cells.size := Nat.ne_of_lt (hs.find_lt hv)
    rw [cell, hs.find_alloc, cell]
    simp [Store.alloc, Array.getElem?_push, ne]

namespace Extends

theorem refl (s : Store) : s.Extends s := ⟨Nat.le_refl _, fun _ => rfl, fun _ => rfl⟩

theorem trans (h : s.Extends t) (k : t.Extends u) : s.Extends u where
  size := Nat.le_trans h.size k.size
  find v := (k.find v).trans (h.find v)
  cell hv := (k.cell (Nat.lt_of_lt_of_le hv h.size)).trans (h.cell hv)

theorem shape (h : s.Extends t) (hv : v < s.size) : t.shape v = s.shape v := by
  rw [Store.shape, h.cell hv, Store.shape]

theorem readsAs (h : s.Extends t) (hs : s.Wf) {ty : Ty} (hv : v < s.size) (reads : s.ReadsAs v ty) :
    t.ReadsAs v ty := by
  induction reads with
  | @node v read _ ih =>
    rw [← h.shape hv]
    refine .node read fun p hp => ?_
    rw [h.shape hv] at hp
    exact ih p hp (hs.parts_lt hp)

theorem resolve (h : s.Extends t) (hs : s.Wf) (ht : t.Wf) (hv : v < s.size) :
    t.resolve v = s.resolve v :=
  (ht.readsAs_resolve (Nat.lt_of_lt_of_le hv h.size)).unique
    (h.readsAs hs hv (hs.readsAs_resolve hv))

theorem spread (h : s.Extends t) (hs : s.Wf) (ht : t.Wf) (hv : v < s.size) :
    t.spread v = s.spread v := by
  -- The induction goes down the parts of `v`.
  induction v using hs.wellFounded.induction with
  | _ v ih =>
    rw [ht.spread_eq (Nat.lt_of_lt_of_le hv h.size), hs.spread_eq hv, h.shape hv, h.find]
    refine congrArg (· ++ _) (flatMap_written fun p hp => ?_)
    exact ih p ⟨p, hp, rfl⟩ (hs.parts_lt hp)

end Extends

end Extends

section Alloc

variable (hs : s.Wf) (parts : ∀ c ∈ p.parts, c < s.size)

include hs parts

theorem Wf.resolve_alloc :
    (Store.alloc p place s).2.resolve s.size = .ofShape (p.map s.resolve) := by
  have wf : (Store.alloc p place s).2.Wf := hs.alloc parts
  have reads : (Store.alloc p place s).2.ReadsAs s.size
      (.ofShape (((Store.alloc p place s).2.shape s.size).map s.resolve)) := by
    refine .node _ fun c hc => ?_
    rw [hs.shape_alloc, if_pos rfl] at hc
    have hc := parts c hc
    exact (hs.extends_alloc p place).readsAs hs hc (hs.readsAs_resolve hc)
  rw [(wf.readsAs_resolve (by simp)).unique reads, hs.shape_alloc, if_pos rfl]

theorem Wf.spread_alloc :
    (Store.alloc p place s).2.spread s.size = p.written.flatMap s.spread ++ [s.size] := by
  have wf : (Store.alloc p place s).2.Wf := hs.alloc parts
  rw [wf.spread_eq (by simp), hs.shape_alloc, if_pos rfl, hs.find_alloc,
    hs.find_of_le (Nat.le_refl _)]
  refine congrArg (· ++ _) (flatMap_written fun c hc => ?_)
  exact (hs.extends_alloc p place).spread hs wf (parts c hc)

end Alloc

section Laid

/-- The types stand in the classes that `u` has and `s` has not, one for each of their nodes, in
order; `cs` are the classes of the types themselves. -/
structure Laid (s u : Store) (ts : List Ty) (cs : List Class) : Prop where
  wf : u.Wf
  older : s.Extends u
  size : u.size = s.size + (ts.flatMap Ty.nodes).length
  lt {c : Class} : c ∈ cs → c < u.size
  resolve : cs.map u.resolve = ts
  spread : cs.flatMap u.spread = List.range' s.size (ts.flatMap Ty.nodes).length
  nodes : (List.range' s.size (ts.flatMap Ty.nodes).length).map u.resolve = ts.flatMap Ty.nodes

namespace Laid

variable {ts us : List Ty} {cs ds : List Class}

theorem nil (hs : s.Wf) : s.Laid s [] [] where
  wf := hs
  older := .refl s
  size := rfl
  lt := by simp
  resolve := rfl
  spread := rfl
  nodes := rfl

/-- The new classes go on standing for the nodes. -/
theorem nodes_later (h : s.Laid t ts cs) (k : t.Extends u) (hu : u.Wf) :
    (List.range' s.size (ts.flatMap Ty.nodes).length).map u.resolve = ts.flatMap Ty.nodes := by
  refine (List.map_congr_left fun c hc => ?_).trans h.nodes
  have new : c < t.size := h.size ▸ (List.mem_range'_1.mp hc).2
  exact k.resolve h.wf hu new

theorem append (h : s.Laid t ts cs) (k : t.Laid u us ds) : s.Laid u (ts ++ us) (cs ++ ds) := by
  have range : List.range' s.size ((ts ++ us).flatMap Ty.nodes).length =
      List.range' s.size (ts.flatMap Ty.nodes).length ++
        List.range' t.size (us.flatMap Ty.nodes).length := by
    rw [List.flatMap_append, List.length_append, h.size, List.range'_append_1]
  refine ⟨k.wf, h.older.trans k.older, ?_, fun hc => ?_, ?_, ?_, ?_⟩
  · rw [k.size, h.size, List.flatMap_append, List.length_append, Nat.add_assoc]
  · rcases List.mem_append.mp hc with hc | hc
    · exact Nat.lt_of_lt_of_le (h.lt hc) k.older.size
    · exact k.lt hc
  · rw [List.map_append, k.resolve,
      List.map_congr_left fun c hc => k.older.resolve h.wf k.wf (h.lt hc), h.resolve]
  · rw [range, List.flatMap_append, k.spread,
      List.flatMap_congr fun c hc => k.older.spread h.wf k.wf (h.lt hc), h.spread]
  · rw [range, List.map_append, k.nodes, List.flatMap_append, h.nodes_later k.older k.wf]

/-- The class made after those of the parts stands for the whole. -/
theorem alloc {ty : Ty} (h : s.Laid t ts cs) (written : p.written = cs)
    (whole : ∀ read : Class → Ty, cs.map read = ts → .ofShape (p.map read) = ty)
    (nodes : ty.nodes = ts.flatMap Ty.nodes ++ [ty]) (place : Span) :
    s.Laid (Store.alloc p place t).2 [ty] [t.size] := by
  have parts : ∀ c ∈ p.parts, c < t.size := fun c hc =>
    h.lt (written ▸ Shape.mem_written.mpr hc)
  have wf : (Store.alloc p place t).2.Wf := h.wf.alloc parts
  have older := h.wf.extends_alloc p place
  have read : (Store.alloc p place t).2.resolve t.size = ty := by
    rw [h.wf.resolve_alloc parts, whole _ h.resolve]
  have length : ([ty].flatMap Ty.nodes).length = (ts.flatMap Ty.nodes).length + 1 := by
    simp [nodes]
  have range : List.range' s.size ([ty].flatMap Ty.nodes).length =
      List.range' s.size (ts.flatMap Ty.nodes).length ++ [t.size] := by
    rw [length, h.size, List.range'_1_concat]
  refine ⟨wf, h.older.trans older, ?_, fun hc => ?_, ?_, ?_, ?_⟩
  · rw [size_alloc, length, h.size, Nat.add_assoc]
  · rw [List.mem_singleton.mp hc, size_alloc]
    exact Nat.lt_succ_self _
  · rw [List.map_singleton, read]
  · rw [range, List.flatMap_singleton, h.wf.spread_alloc parts, written, h.spread]
  · rw [range, List.map_append, List.map_singleton, read, List.flatMap_singleton, nodes,
      h.nodes_later older wf]

end Laid

private theorem loadAll_laid_of {ts : List Ty} (hs : s.Wf)
    (each : ∀ t ∈ ts, ∀ {s : Store}, s.Wf → s.Laid (load place t s).2 [t] [(load place t s).1]) :
    s.Laid (loadAll place ts s).2 ts (loadAll place ts s).1 := by
  induction ts generalizing s with
  | nil => exact .nil hs
  | cons t ts ih =>
    obtain ⟨head, tail⟩ := List.forall_mem_cons.mp each
    have first := head hs
    exact first.append (ih first.wf tail)

theorem load_laid (hs : s.Wf) (t : Ty) : s.Laid (load place t s).2 [t] [(load place t s).1] := by
  induction t using Ty.inductParts generalizing s with
  | arrow ps r ihp ihr =>
    have params := loadAll_laid_of hs ihp
    have parts := params.append (ihr params.wf)
    refine parts.alloc (p := .arrow _ _) rfl (fun read h => ?_) ?_ place
    · rw [List.map_append] at h
      obtain ⟨hp, hr⟩ := List.append_inj' h rfl
      obtain ⟨hr, -⟩ := List.cons.inj hr
      rw [Shape.map, hp, hr, Ty.ofShape]
    · rw [Ty.nodes, Ty.nodesAll_eq_flatMap, List.flatMap_append, List.flatMap_singleton]
  | tuple ts ih =>
    refine (loadAll_laid_of hs ih).alloc (p := .tuple _) rfl (fun read h => ?_) ?_ place
    · rw [Shape.map, h, Ty.ofShape]
    · rw [Ty.nodes, Ty.nodesAll_eq_flatMap]
  | option t ih =>
    refine (ih hs).alloc (p := .option _) rfl (fun read h => ?_) ?_ place
    · rw [Shape.map, (List.cons.inj h).1, Ty.ofShape]
    · rw [Ty.nodes, List.flatMap_singleton]
  | array t ih =>
    refine (ih hs).alloc (p := .array _) rfl (fun read h => ?_) ?_ place
    · rw [Shape.map, (List.cons.inj h).1, Ty.ofShape]
    · rw [Ty.nodes, List.flatMap_singleton]
  | _ => exact (Laid.nil hs).alloc rfl (fun _ _ => rfl) rfl place

end Laid

section Holes

variable {a b : Class}

theorem resolve_of_any (hole : s.shape v = .any) : s.resolve v = .any := by
  rw [resolve]
  cases s.size with
  | zero => rfl
  | succ depth => rw [resolveWithin, hole, Shape.map, Ty.ofShape]

theorem shape_of_resolve_any (hv : v < s.size) (reads : s.resolve v = .any) : s.shape v = .any := by
  obtain ⟨depth, hd⟩ := Nat.exists_eq_succ_of_ne_zero (Nat.ne_zero_of_lt hv)
  rw [resolve, hd, resolveWithin] at reads
  exact Shape.map_eq_any.mp (Ty.ofShape_injective reads)

/-- One of the two is a hole, and not the one that `v` is. -/
def Spares (s : Store) (v a b : Class) : Prop :=
  s.shape a = .any ∧ s.find v ≠ s.find a ∨ s.shape b = .any ∧ s.find v ≠ s.find b

theorem Wf.spares_find (hs : s.Wf) : s.Spares v (s.find a) (s.find b) ↔ s.Spares v a b := by
  simp only [Spares, hs.shape_find, hs.find_find]

theorem SameClasses.spares (same : s.SameClasses t) : t.Spares v a b ↔ s.Spares v a b := by
  simp only [Spares, same.shape, same.find]

/-- A hole is filled by what it is merged with, and no other hole is. -/
theorem Wf.shape_merge_any (hs : s.Wf) (ha : a < s.size) (hb : b < s.size) (hole : s.shape v = .any)
    (spares : s.Spares v a b) : (s.merge a b).shape v = .any := by
  rcases hs.merge_joins ha hb with joins | joins
  · rw [joins.shape, hs.shape_find]
    split
    next follows =>
      rcases spares with ⟨any, -⟩ | ⟨-, ne⟩
      · exact any
      · exact absurd follows ne
    next => exact hole
  · rw [joins.shape, hs.shape_find]
    split
    next follows =>
      rcases spares with ⟨-, ne⟩ | ⟨any, -⟩
      · exact absurd follows ne
      · exact any
    next => exact hole

theorem Wf.shape_unify_any (hs : s.Wf) (ha : a < s.size) (hb : b < s.size) (hole : s.shape v = .any)
    (spares : s.Spares v a b) : (s.unify a b).2.shape v = .any := by
  have merged {u : Store} (same : s.SameClasses u) :
      (u.merge (s.find a) (s.find b)).shape v = .any := by
    refine (same.wf hs).shape_merge_any ?_ ?_ (same.shape ▸ hole) ?_
    · exact same.size ▸ hs.find_lt ha
    · exact same.size ▸ hs.find_lt hb
    · exact same.spares.mpr (hs.spares_find.mpr spares)
  have notBoth : ¬ (s.shape (s.find a) ≠ .any ∧ s.shape (s.find b) ≠ .any) := by
    rw [hs.shape_find, hs.shape_find]
    rintro ⟨knownA, knownB⟩
    rcases spares with ⟨any, -⟩ | ⟨any, -⟩
    · exact knownA any
    · exact knownB any
  rcases unify_cases a b s with ⟨t, eq, run⟩ | ⟨_, t, _, _, eq, same, _⟩
  · rw [eq]
    obtain ⟨n, hn⟩ := Nat.exists_eq_succ_of_ne_zero (Nat.ne_zero_of_lt ha)
    rw [hn, unifyWithin_succ] at run
    have meets := s.meets_encounter a b
    generalize s.encounter a b = e at meets run
    cases meets with
    | same =>
      cases run
      rw [(record_same _ _ _ _ s).shape, hole]
    | holes =>
      cases run
      exact merged ⟨rfl, rfl⟩
    | left | right =>
      dsimp only at run
      split at run
      · cases run
      · cases run
        exact merged (record_same _ _ _ _ s)
    | parts _ knownA knownB | clash _ knownA knownB => exact absurd ⟨knownA, knownB⟩ notBoth
  · rw [eq, same.shape, hole]

end Holes

section Later

/-- Classes have been added, in whatever ways, and nothing else has been done. -/
inductive Allocated (s : Store) : Store → Prop
  | refl : Allocated s s
  | alloc {t : Store} (p : Shape Class) (place : Span) : Allocated s t →
      (∀ c ∈ p.parts, c < t.size) → Allocated s (alloc p place t).2
  | load {t : Store} (ty : Ty) (place : Span) : Allocated s t → Allocated s (load place ty t).2
  | operator {t : Store} {o : Op} {shapes : List (Shape Nat)} (place : Span) : Allocated s t →
      o.signature = some shapes → Allocated s (instantiate shapes place t).2

theorem Allocated.older (h : s.Allocated t) (hs : s.Wf) : t.Wf ∧ s.Extends t := by
  have keep (u : Store) (p : Shape Class) (place : Span) (hu : u.Wf ∧ s.Extends u)
      (parts : ∀ c ∈ p.parts, c < u.size) :
      (Store.alloc p place u).2.Wf ∧ s.Extends (Store.alloc p place u).2 :=
    ⟨hu.1.alloc parts, hu.2.trans (hu.1.extends_alloc p place)⟩
  induction h with
  | refl => exact ⟨hs, .refl s⟩
  | alloc p place _ parts ih => exact keep _ p place ih parts
  | load ty place _ ih => exact (load_made keep ty ih).keeps
  | operator place _ sig ih => exact foldlM_alloc keep ih rfl (Typing.signature_before sig)

end Later

section Loaded

/-- A type has been loaded into the store `s` as the class `v` of `u`. -/
structure Loaded (s u : Store) (t : Ty) (v : Class) : Prop where
  /-- It reads back, -/
  resolve : u.resolve v = t
  /-- also after more classes have been made. -/
  later {w : Store} : u.Allocated w → w.resolve v = t
  size : u.size = s.size + t.nodes.length
  /-- It is read off the new classes, each of which stands for one node. -/
  spread : u.spread v = List.range' s.size t.nodes.length
  nodes : (u.spread v).map u.resolve = t.nodes
  /-- Whatever one hole of the type is unified with, the others stay open. -/
  apart {i j : Nat} {b : Class} : t.nodes[i]? = some .any → t.nodes[j]? = some .any → i ≠ j →
    b < u.size → (u.unify (s.size + i) b).2.resolve (s.size + j) = .any ∧
      (u.unify b (s.size + i)).2.resolve (s.size + j) = .any
  /-- The classes that were there are what they were. -/
  same {a b : Class} : a < s.size → b < s.size → (u.find a = u.find b ↔ s.find a = s.find b)
  older {a : Class} : a < s.size → u.resolve a = s.resolve a ∧ u.span a = s.span a

namespace Laid

variable {ty part : Ty} {i j : Nat} {b : Class}

/-- The class of a node is new, leads itself, and reads as the node. -/
theorem node (h : s.Laid u [ty] [v]) (hs : s.Wf) (hi : ty.nodes[i]? = some part) :
    s.size + i < u.size ∧ u.find (s.size + i) = s.size + i ∧ u.resolve (s.size + i) = part := by
  have size := h.size
  have nodes := h.nodes
  rw [List.flatMap_singleton] at size nodes
  obtain ⟨lt, -⟩ := List.getElem?_eq_some_iff.mp hi
  refine ⟨by omega, ?_, ?_⟩
  · rw [h.older.find, hs.find_of_le (Nat.le_add_right _ _)]
  · rw [← nodes, List.getElem?_map, List.getElem?_range' lt] at hi
    simpa using hi

theorem apart (h : s.Laid u [ty] [v]) (hs : s.Wf) (hi : ty.nodes[i]? = some .any)
    (hj : ty.nodes[j]? = some .any) (ne : i ≠ j) (hb : b < u.size) :
    (u.unify (s.size + i) b).2.resolve (s.size + j) = .any ∧
      (u.unify b (s.size + i)).2.resolve (s.size + j) = .any := by
  obtain ⟨ltI, findI, readI⟩ := h.node hs hi
  obtain ⟨ltJ, findJ, readJ⟩ := h.node hs hj
  have spared : u.shape (s.size + i) = .any ∧ u.find (s.size + j) ≠ u.find (s.size + i) := by
    refine ⟨shape_of_resolve_any ltI readI, ?_⟩
    rw [findI, findJ]
    exact fun eq => ne (Nat.add_left_cancel eq).symm
  have hole := shape_of_resolve_any ltJ readJ
  exact ⟨resolve_of_any (h.wf.shape_unify_any ltI hb hole (.inl spared)),
    resolve_of_any (h.wf.shape_unify_any hb ltI hole (.inr spared))⟩

end Laid

/-- Loading a type and reading it back, in whatever store: the type comes back, it has a new class
for each of its nodes, and all other classes are left alone. -/
theorem load_round_trip (h : s.Reachable) (ty : Ty) (place : Span) :
    s.Loaded (load place ty s).2 ty (load place ty s).1 := by
  have hs := h.wf
  have laid : s.Laid (load place ty s).2 [ty] [(load place ty s).1] := load_laid hs ty
  have resolve := (List.cons.inj laid.resolve).1
  have size := laid.size
  have spread := laid.spread
  have nodes := laid.nodes
  rw [List.flatMap_singleton] at size nodes
  rw [List.flatMap_singleton, List.flatMap_singleton] at spread
  refine ⟨resolve, fun more => ?_, size, spread, spread ▸ nodes, laid.apart hs, fun _ _ => ?_,
    fun ha => ⟨laid.older.resolve hs laid.wf ha, ?_⟩⟩
  · obtain ⟨wf, older⟩ := more.older laid.wf
    rw [older.resolve laid.wf wf (laid.lt List.mem_cons_self), resolve]
  · rw [laid.older.find, laid.older.find]
  · rw [span, laid.older.cell ha, span]

/-- A function of a hole and of a pair with another one in it, to an option of a third. -/
def threeHoles : Ty := .arrow [.any, .tuple [.any, .int]] (.option .any)

/-- It is loaded after the classes of a store in which a hole has been filled. -/
def listUser : Store := (load .synthetic threeHoles listMaker).2

/-- The first hole takes the lists that the store has; the other two stay open. -/
theorem listUser_round_trip : listMaker.Reachable ∧ listMaker.Loaded listUser threeHoles 10 ∧
    listUser.spread 10 = [4, 5, 6, 7, 8, 9, 10] ∧
    (listUser.unify 4 2).2.resolve 4 = .array .any ∧
    (listUser.unify 4 2).2.resolve 5 = .any ∧ (listUser.unify 4 2).2.resolve 8 = .any := by
  have root : (load .synthetic threeHoles listMaker).1 = 10 := by decide +kernel
  have size : listMaker.size = 4 := by decide +kernel
  have lt : 2 < listUser.size := by decide +kernel
  have filled : (listUser.unify 4 2).2.resolve 4 = .array .any := by decide +kernel
  have loaded : listMaker.Loaded listUser threeHoles 10 :=
    root ▸ load_round_trip listMaker_reachable threeHoles .synthetic
  have second := (loaded.apart (i := 0) (j := 1) rfl rfl (by decide) lt).1
  have third := (loaded.apart (i := 0) (j := 4) rfl rfl (by decide) lt).1
  have spread := loaded.spread
  rw [size] at second third spread
  exact ⟨listMaker_reachable, loaded, spread, filled, second, third⟩

end Loaded

end Store

end Ordinance
