import Ordinance.Proofs.Store.Model
import Ordinance.Proofs.Typing.Rules
import Ordinance.Typing.Elaborate

namespace Ordinance.Typing

variable {α β : Type} {s t : Store} {φ ψ : Class → Ty} {a b c : Class} {span : Span}

theorem bind_ok {x : TypeM α} {f : α → TypeM β} {b : β} (h : (x >>= f) s = .ok (b, t)) :
    ∃ a u, x s = .ok (a, u) ∧ f a u = .ok (b, t) := by
  change Except.bind (x s) (fun p => f p.1 p.2) = _ at h
  cases hx : x s with
  | error e =>
    rw [hx] at h
    cases h
  | ok p =>
    rw [hx] at h
    exact ⟨p.1, p.2, rfl, h⟩

theorem bind_run {x : TypeM α} (f : α → TypeM β) {a : α} (h : x s = .ok (a, t)) :
    (x >>= f) s = f a t := by
  change Except.bind (x s) (fun p => f p.1 p.2) = _
  rw [h]
  rfl

/-- If a run from `s` succeeds, it leaves a larger store, of which `bound` holds; and `holds` is
true for every reading `φ` of that store, hence for the readings of all stores that come after it. -/
def Sound (φ : Class → Ty) (s : Store) (x : TypeM α) (bound : α → Store → Prop)
    (holds : α → Prop) : Prop :=
  ∀ a t, x s = .ok (a, t) → t.Wf ∧ s.Le t ∧ bound a t ∧ (t.Model φ → holds a)

namespace Sound

variable {x : TypeM α} {f : α → TypeM β} {bound : α → Store → Prop} {holds : α → Prop}
  {bound' : β → Store → Prop} {holds' : β → Prop}

theorem pure {a : α} (hs : s.Wf) (hb : bound a s) (h : holds a) :
    Sound φ s (Pure.pure a) bound holds := by
  intro a' t run
  cases run
  exact ⟨hs, .refl s, hb, fun _ => h⟩

theorem bind (hx : Sound φ s x bound holds)
    (hf : ∀ a t, t.Wf → s.Le t → bound a t → Sound φ t (f a) bound' fun b => holds a → holds' b) :
    Sound φ s (x >>= f) bound' holds' := by
  intro b u run
  obtain ⟨a, t, runx, runf⟩ := bind_ok run
  obtain ⟨ht, le, hb, h⟩ := hx a t runx
  obtain ⟨hu, le', hb', h'⟩ := hf a t ht le hb b u runf
  exact ⟨hu, le.trans ht le', hb', fun model => h' model (h (model.of_le ht le'))⟩

theorem imp (hx : Sound φ s x bound holds) {bound₁ : α → Store → Prop} {holds₁ : α → Prop}
    (hb : ∀ a t, s.Le t → bound a t → bound₁ a t) (h : ∀ a, holds a → holds₁ a) :
    Sound φ s x bound₁ holds₁ := by
  intro a t run
  obtain ⟨ht, le, ha, ha'⟩ := hx a t run
  exact ⟨ht, le, hb a t le ha, fun model => h a (ha' model)⟩

theorem fail {fault : Fault} : Sound φ s (Typing.fail fault span) bound holds := by
  intro a t run
  cases run

/-- What holds for each reading holds for all readings of the store that the run leaves. -/
theorem all {holds : (Class → Ty) → α → Prop} (hx : ∀ χ, Sound χ s x bound (holds χ)) :
    Sound φ s x (fun a t => bound a t ∧ ∀ χ, t.Model χ → holds χ a) (holds φ) := by
  intro a t run
  obtain ⟨ht, le, hb, h⟩ := hx φ a t run
  exact ⟨ht, le, ⟨hb, fun χ => (hx χ a t run).2.2.2⟩, h⟩

end Sound

/-- A later store, with a reading of it that agrees on all classes of the earlier one. -/
structure Extends (s : Store) (φ : Class → Ty) (t : Store) (ψ : Class → Ty) : Prop where
  wf : t.Wf
  le : s.Le t
  model : t.Model ψ
  keep {v : Class} : v < s.size → ψ v = φ v

theorem Extends.refl (hs : s.Wf) (model : s.Model φ) : Extends s φ s φ :=
  ⟨hs, .refl s, model, fun _ => rfl⟩

theorem Extends.trans {u : Store} {χ : Class → Ty} (h : Extends s φ t ψ) (k : Extends t ψ u χ) :
    Extends s φ u χ where
  wf := k.wf
  le := h.le.trans h.wf k.le
  model := k.model
  keep hv := (k.keep (Nat.lt_of_lt_of_le hv h.le.size)).trans (h.keep hv)

theorem Extends.carry {u : Ty} (h : Extends s φ t ψ) (hc : c < s.size ∧ φ c = u) :
    c < t.size ∧ ψ c = u :=
  ⟨Nat.lt_of_lt_of_le hc.1 h.le.size, (h.keep hc.1).trans hc.2⟩

theorem Extends.carryAll {cs : List Class} {us : List Ty} (h : Extends s φ t ψ)
    (hcs : (∀ c ∈ cs, c < s.size) ∧ cs.map φ = us) : (∀ c ∈ cs, c < t.size) ∧ cs.map ψ = us := by
  refine ⟨fun c hc => Nat.lt_of_lt_of_le (hcs.1 c hc) h.le.size, ?_⟩
  rw [← hcs.2]
  exact List.map_congr_left fun c hc => h.keep (hcs.1 c hc)

/-- A run from `s` succeeds, and the reading `φ` of `s` extends to one of the store it leaves, of
which `holds` is true. -/
def Completes (φ : Class → Ty) (s : Store) (x : TypeM α)
    (holds : α → Store → (Class → Ty) → Prop) : Prop :=
  ∃ a t ψ, x s = .ok (a, t) ∧ Extends s φ t ψ ∧ holds a t ψ

namespace Completes

variable {x : TypeM α} {f : α → TypeM β} {holds : α → Store → (Class → Ty) → Prop}
  {holds' : β → Store → (Class → Ty) → Prop}

theorem pure {a : α} (hs : s.Wf) (model : s.Model φ) (h : holds a s φ) :
    Completes φ s (Pure.pure a) holds :=
  ⟨a, s, φ, rfl, .refl hs model, h⟩

theorem bind (hx : Completes φ s x holds)
    (hf : ∀ a t ψ, Extends s φ t ψ → holds a t ψ → Completes ψ t (f a) holds') :
    Completes φ s (x >>= f) holds' := by
  obtain ⟨a, t, ψ, run, ext, h⟩ := hx
  obtain ⟨b, u, χ, run', ext', h'⟩ := hf a t ψ ext h
  exact ⟨b, u, χ, (bind_run f run).trans run', ext.trans ext', h'⟩

theorem imp (hx : Completes φ s x holds) {holds₁ : α → Store → (Class → Ty) → Prop}
    (h : ∀ a t ψ, Extends s φ t ψ → holds a t ψ → holds₁ a t ψ) : Completes φ s x holds₁ := by
  obtain ⟨a, t, ψ, run, ext, ha⟩ := hx
  exact ⟨a, t, ψ, run, ext, h a t ψ ext ha⟩

/-- What is so of every run that succeeds is so of this one. -/
theorem sound (hx : Completes φ s x holds) {bound : α → Store → Prop}
    {reads : (Class → Ty) → α → Prop} (hs : ∀ χ, Sound χ s x bound (reads χ)) :
    Completes φ s x fun a t ψ => holds a t ψ ∧ ∀ χ, t.Model χ → reads χ a := by
  obtain ⟨a, t, ψ, run, ext, ha⟩ := hx
  exact ⟨a, t, ψ, run, ext, ha, fun χ => (hs χ a t run).2.2.2⟩

end Completes

section Get

theorem get_sound (hs : s.Wf) :
    Sound φ s (get : TypeM Store) (fun a t => a = s ∧ t = s) fun a => a.Model φ := by
  intro a t run
  cases run
  exact ⟨hs, .refl s, ⟨rfl, rfl⟩, id⟩

theorem get_completes (hs : s.Wf) (model : s.Model φ) :
    Completes φ s (get : TypeM Store) fun a t _ => a = t :=
  ⟨s, s, φ, rfl, .refl hs model, rfl⟩

end Get

section Alloc

variable {shape : Shape Class}

theorem alloc_run : alloc shape span s = .ok (s.size, (Store.alloc shape span s).2) := rfl

theorem alloc_sound_next (hs : s.Wf) (parts : ∀ p ∈ shape.parts, p < s.size) :
    Sound φ s (alloc shape span) (fun c t => c = s.size ∧ t.size = s.size + 1)
      (fun c => shape ≠ .any → φ c = .ofShape (shape.map φ)) := by
  intro c t run
  obtain ⟨rfl, rfl⟩ : s.size = c ∧ (Store.alloc shape span s).2 = t := by
    simpa [alloc_run] using run
  refine ⟨hs.alloc parts, hs.alloc_le, ⟨rfl, Store.size_alloc⟩, fun model known => ?_⟩
  have new : (Store.alloc shape span s).2.shape s.size = shape := by
    rw [hs.shape_alloc, if_pos rfl]
  have read : φ s.size = _ := model.shape (new.symm ▸ known :)
  rwa [new] at read

theorem alloc_sound (hs : s.Wf) (parts : ∀ p ∈ shape.parts, p < s.size) :
    Sound φ s (alloc shape span) (fun c t => c < t.size)
      (fun c => shape ≠ .any → φ c = .ofShape (shape.map φ)) := by
  refine (alloc_sound_next hs parts).imp (fun c t _ h => ?_) fun _ h => h
  rw [h.1, h.2]
  exact Nat.lt_succ_self _

/-- A new class may read as any type that its parts allow. -/
theorem alloc_completes_next (hs : s.Wf) (model : s.Model φ)
    (parts : ∀ p ∈ shape.parts, p < s.size) {u : Ty}
    (hu : shape ≠ .any → u = .ofShape (shape.map φ)) :
    Completes φ s (alloc shape span) fun c t ψ =>
      (c = s.size ∧ t.size = s.size + 1) ∧ ψ c = u := by
  let ψ : Class → Ty := fun v => if v = s.size then u else φ v
  have keep {v : Class} (hv : v < s.size) : ψ v = φ v := if_neg (Nat.ne_of_lt hv)
  have old : s.Model ψ := model.congr hs fun v hv => keep hv
  have new : (Store.alloc shape span s).2.Model ψ := by
    refine ⟨fun v => ?_, fun {v} hv => ?_⟩
    · rw [hs.find_alloc]
      exact old.find v
    · rw [hs.shape_alloc] at hv ⊢
      split at hv
      next eq =>
        rw [if_pos eq, Shape.map_congr fun p hp => keep (parts p hp), ← hu hv]
        exact if_pos eq
      next ne =>
        rw [if_neg ne]
        exact old.shape hv
  exact ⟨_, _, ψ, alloc_run, ⟨hs.alloc parts, hs.alloc_le, new, keep⟩, ⟨rfl, Store.size_alloc⟩,
    if_pos rfl⟩

theorem alloc_completes (hs : s.Wf) (model : s.Model φ) (parts : ∀ p ∈ shape.parts, p < s.size)
    {u : Ty} (hu : shape ≠ .any → u = .ofShape (shape.map φ)) :
    Completes φ s (alloc shape span) fun c t ψ => c < t.size ∧ ψ c = u := by
  refine (alloc_completes_next hs model parts hu).imp fun c t ψ _ h => ⟨?_, h.2⟩
  rw [h.1.1, h.1.2]
  exact Nat.lt_succ_self _

end Alloc

section Unify

private theorem unify_eq : unify a b span s =
    (match s.unify a b with
    | (.ok (), s) => set s
    | (.error m, _) => fail (.mismatch m) span : TypeM Unit) s := rfl

theorem unify_run : unify a b span s = .ok ((), t) ↔ Store.unifyWithin s.size a b s = .ok () t := by
  rw [unify_eq, Store.unify]
  cases Store.unifyWithin s.size a b s with
  | ok _ u =>
    change Except.ok ((), u) = _ ↔ _
    simp
  | error clash u =>
    refine ⟨fun h => ?_, nofun⟩
    cases h

theorem unify_sound (hs : s.Wf) (ha : a < s.size) (hb : b < s.size) :
    Sound φ s (unify a b span) (fun _ _ => True) (fun _ => φ a = φ b) := by
  intro _ t run
  have unified := Store.unifyWithin_ok hs ha hb (unify_run.mp run)
  refine ⟨unified.wf, unified.le, trivial, fun model => ?_⟩
  rw [← model.find a, unified.find, model.find]

theorem unify_completes (hs : s.Wf) (model : s.Model φ) (ha : a < s.size) (hb : b < s.size)
    (eq : φ a = φ b) : Completes φ s (unify a b span) fun _ _ _ => True := by
  obtain ⟨t, run, after⟩ := Store.unifyWithin_complete hs ha hb model eq
    (List.pairwise_singleton _ a) (Nat.add_zero _)
  have unified := Store.unifyWithin_ok hs ha hb run
  exact ⟨(), t, φ, unify_run.mpr run, ⟨unified.wf, unified.le, after, fun _ => rfl⟩, trivial⟩

end Unify

section Shape

theorem shapeOf_sound (hs : s.Wf) :
    Sound φ s (shapeOf c) (fun p t => ∀ q ∈ p.parts, q < t.size)
      (fun p => p ≠ .any → φ c = .ofShape (p.map φ)) := by
  intro p t run
  cases run
  exact ⟨hs, .refl s, fun q hq => hs.parts_lt hq, fun model => model.shape⟩

theorem shapeOf_completes (hs : s.Wf) (model : s.Model φ) :
    Completes φ s (shapeOf c) fun p t ψ =>
      (∀ q ∈ p.parts, q < t.size) ∧ (p ≠ .any → ψ c = .ofShape (p.map ψ)) :=
  ⟨_, s, φ, rfl, .refl hs model, fun _ hq => hs.parts_lt hq, model.shape⟩

end Shape

section Checks

variable {found : Option α} {kind : NameKind} {name : String} {x : α}

theorem resolved_sound (hs : s.Wf) :
    Sound φ s (resolved found kind name span) (fun a _ => found = some a) (fun _ => True) := by
  intro a t run
  cases found with
  | none => cases run
  | some a => cases run; exact ⟨hs, .refl s, rfl, fun _ => trivial⟩

theorem resolved_run (h : found = some x) : resolved found kind name span = pure x := by
  rw [h, resolved]

theorem resolved_completes (h : found = some x) (hs : s.Wf) (model : s.Model φ) :
    Completes φ s (resolved found kind name span) fun _ _ _ => True := by
  rw [resolved_run h]
  exact .pure hs model trivial

theorem counted_sound (hs : s.Wf) {what : String} {m n : Nat} :
    Sound φ s (counted what m n span) (fun _ _ => m = n) (fun _ => True) := by
  rw [counted]
  split
  next eq => exact .pure hs eq trivial
  next => exact .fail

theorem counted_run {what : String} {m n : Nat} (h : m = n) :
    counted what m n span = pure () := by
  rw [counted, if_pos h]

end Checks

section Load

theorem loadAll_cons (u : Ty) (us : List Ty) : loadAll (u :: us) span = do
    let c ← load u span
    let cs ← loadAll us span
    return c :: cs := rfl

theorem load_arrow (ps : List Ty) (r : Ty) : load (.arrow ps r) span =
    loadAll ps span >>= fun ps => load r span >>= fun r => alloc (.arrow ps r) span := rfl

theorem load_tuple (us : List Ty) : load (.tuple us) span =
    loadAll us span >>= fun us => alloc (.tuple us) span := rfl

theorem load_option (u : Ty) : load (.option u) span =
    load u span >>= fun u => alloc (.option u) span := rfl

theorem load_array (u : Ty) : load (.array u) span =
    load u span >>= fun u => alloc (.array u) span := rfl

private theorem loadAll_sound_of {us : List Ty} (hs : s.Wf)
    (each : ∀ u ∈ us, ∀ s : Store, s.Wf →
      Sound φ s (load u span) (fun c t => c < t.size) (fun c => u.Admits (φ c))) :
    Sound φ s (loadAll us span) (fun cs t => cs.length = us.length ∧ ∀ c ∈ cs, c < t.size)
      (fun cs => Ty.AdmitsAll us (cs.map φ)) := by
  induction us generalizing s with
  | nil => exact .pure hs ⟨rfl, by simp⟩ trivial
  | cons u us ih =>
    obtain ⟨head, tail⟩ := List.forall_mem_cons.mp each
    rw [loadAll_cons]
    refine .bind (head s hs) fun c t ht _ hc => ?_
    refine .bind (ih ht tail) fun cs t ht le hcs => ?_
    refine .pure ht ⟨by simp [hcs.1], List.forall_mem_cons.mpr ⟨?_, hcs.2⟩⟩ fun many one => ?_
    · exact Nat.lt_of_lt_of_le hc le.size
    · exact ⟨one, many⟩

theorem load_sound (hs : s.Wf) (u : Ty) :
    Sound φ s (load u span) (fun c t => c < t.size) (fun c => u.Admits (φ c)) := by
  induction u using Ty.inductParts generalizing s with
  | arrow ps r ihp ihr =>
    rw [load_arrow]
    refine .bind (loadAll_sound_of hs fun p hp s hs => ihp p hp hs) fun cs t ht _ hcs => ?_
    refine .bind (ihr ht) fun c t ht le hc => ?_
    have parts : ∀ q ∈ (Shape.arrow cs c).parts, q < t.size :=
      List.forall_mem_cons.mpr ⟨hc, fun q hq => Nat.lt_of_lt_of_le (hcs.2 q hq) le.size⟩
    refine (alloc_sound ht parts).imp (fun _ _ _ lt => lt) fun d read result params => ?_
    rw [read (by simp)]
    exact ⟨params, result⟩
  | tuple us ih =>
    rw [load_tuple]
    refine .bind (loadAll_sound_of hs fun p hp s hs => ih p hp hs) fun cs t ht _ hcs => ?_
    have parts : ∀ q ∈ (Shape.tuple cs).parts, q < t.size := hcs.2
    refine (alloc_sound ht parts).imp (fun _ _ _ lt => lt) fun d read parts => ?_
    rw [read (by simp)]
    exact parts
  | option u ih =>
    rw [load_option]
    refine .bind (ih hs) fun c t ht _ hc => ?_
    refine (alloc_sound ht (by simpa [Shape.parts] using hc)).imp (fun _ _ _ lt => lt)
      fun d read part => ?_
    rw [read (by simp)]
    exact part
  | array u ih =>
    rw [load_array]
    refine .bind (ih hs) fun c t ht _ hc => ?_
    refine (alloc_sound ht (by simpa [Shape.parts] using hc)).imp (fun _ _ _ lt => lt)
      fun d read part => ?_
    rw [read (by simp)]
    exact part
  | any => exact (alloc_sound hs (by simp [Shape.parts])).imp (fun _ _ _ lt => lt) (by simp)
  | _ =>
    refine (alloc_sound hs (by simp [Shape.parts])).imp (fun _ _ _ lt => lt) fun d read => ?_
    rw [read (by simp)]
    exact .refl _

theorem loadAll_sound (hs : s.Wf) (us : List Ty) :
    Sound φ s (loadAll us span) (fun cs t => cs.length = us.length ∧ ∀ c ∈ cs, c < t.size)
      (fun cs => Ty.AdmitsAll us (cs.map φ)) :=
  loadAll_sound_of hs fun u _ _ hs => load_sound hs u

private theorem loadAll_completes_of {us vs : List Ty} (hs : s.Wf) (model : s.Model φ)
    (each : ∀ u ∈ us, ∀ {s : Store} {φ : Class → Ty} {v : Ty}, s.Wf → s.Model φ → u.Admits v →
      Completes φ s (load u span) fun c t ψ => c < t.size ∧ ψ c = v)
    (h : Ty.AdmitsAll us vs) :
    Completes φ s (loadAll us span) fun cs t ψ => (∀ c ∈ cs, c < t.size) ∧ cs.map ψ = vs := by
  induction us generalizing s φ vs with
  | nil =>
    cases vs with
    | nil => exact .pure hs model ⟨by simp, rfl⟩
    | cons => cases h
  | cons u us ih =>
    cases vs with
    | nil => cases h
    | cons v vs =>
      obtain ⟨head, tail⟩ := List.forall_mem_cons.mp each
      rw [loadAll_cons]
      refine .bind (head hs model h.1) fun c t ψ ext hc => ?_
      refine .bind (ih ext.wf ext.model tail h.2) fun cs t ψ ext hcs => ?_
      refine .pure ext.wf ext.model ⟨List.forall_mem_cons.mpr ⟨?_, hcs.1⟩, ?_⟩
      · exact Nat.lt_of_lt_of_le hc.1 ext.le.size
      · rw [List.map_cons, hcs.2, ext.keep hc.1, hc.2]

/-- A loaded type may read as any of its instances. -/
theorem load_completes {u v : Ty} (hs : s.Wf) (model : s.Model φ) (h : u.Admits v) :
    Completes φ s (load u span) fun c t ψ => c < t.size ∧ ψ c = v := by
  induction u using Ty.inductParts generalizing s φ v with
  | arrow ps r ihp ihr =>
    cases v with
    | arrow qs q =>
      rw [load_arrow]
      refine .bind (loadAll_completes_of hs model (fun p hp _ _ _ => ihp p hp) h.1)
        fun cs t ψ ext hcs => ?_
      refine .bind (ihr ext.wf ext.model h.2) fun c t ψ ext hc => ?_
      have hcs := ext.carryAll hcs
      have parts : ∀ q ∈ (Shape.arrow cs c).parts, q < t.size :=
        List.forall_mem_cons.mpr ⟨hc.1, hcs.1⟩
      refine alloc_completes ext.wf ext.model parts fun _ => ?_
      rw [Shape.map, hcs.2, hc.2, Ty.ofShape]
    | _ => cases h
  | tuple us ih =>
    cases v with
    | tuple vs =>
      rw [load_tuple]
      refine .bind (loadAll_completes_of hs model (fun p hp _ _ _ => ih p hp) h)
        fun cs t ψ ext hcs => ?_
      have parts : ∀ q ∈ (Shape.tuple cs).parts, q < t.size := hcs.1
      refine alloc_completes ext.wf ext.model parts fun _ => ?_
      rw [Shape.map, hcs.2, Ty.ofShape]
    | _ => cases h
  | option u ih =>
    cases v with
    | option v =>
      rw [load_option]
      refine .bind (ih hs model h) fun c t ψ ext hc => ?_
      refine alloc_completes ext.wf ext.model (by simpa [Shape.parts] using hc.1) fun _ => ?_
      rw [Shape.map, hc.2, Ty.ofShape]
    | _ => cases h
  | array u ih =>
    cases v with
    | array v =>
      rw [load_array]
      refine .bind (ih hs model h) fun c t ψ ext hc => ?_
      refine alloc_completes ext.wf ext.model (by simpa [Shape.parts] using hc.1) fun _ => ?_
      rw [Shape.map, hc.2, Ty.ofShape]
    | _ => cases h
  | any => exact alloc_completes hs model (by simp [Shape.parts]) (by simp)
  | _ =>
    rw [← h.eq_of_isConcrete rfl]
    exact alloc_completes hs model (by simp [Shape.parts]) fun _ => rfl

theorem loadAll_completes {us vs : List Ty} (hs : s.Wf) (model : s.Model φ)
    (h : Ty.AdmitsAll us vs) :
    Completes φ s (loadAll us span) fun cs t ψ => (∀ c ∈ cs, c < t.size) ∧ cs.map ψ = vs :=
  loadAll_completes_of hs model (fun _ _ _ _ _ hs model h => load_completes hs model h) h

end Load

end Ordinance.Typing
