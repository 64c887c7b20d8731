import Ordinance.Proofs.Store.Termination

namespace Ordinance

/-- The steps are numbered one by one from the first number after `count`. -/
def Numbered (count : Nat) (xs : List Step) : Prop :=
  xs.map Step.number = List.range' (count + 1) xs.length

/-- None of the steps says that classes cannot be one. -/
def Clean (xs : List Step) : Prop := ∀ x ∈ xs, x.action ≠ .error ∧ x.action ≠ .occursCheck

theorem Numbered.append {count : Nat} {xs ys : List Step} (hx : Numbered count xs)
    (hy : Numbered (count + xs.length) ys) : Numbered count (xs ++ ys) := by
  have shift : count + xs.length + 1 = count + 1 + xs.length := by omega
  rw [Numbered, shift] at hy
  rw [Numbered, List.map_append, hx, hy, List.length_append, List.range'_append_1]

theorem Clean.append {xs ys : List Step} (hx : Clean xs) (hy : Clean ys) : Clean (xs ++ ys) :=
  List.forall_mem_append.mpr ⟨hx, hy⟩

/-- The step in which a clash shows. -/
def Clash.action : Clash → Action
  | shape => .error
  | infinite => .occursCheck

namespace Store

variable {s t u : Store} {a b : Class} {n : Nat} {xs ys : List Step}

/-- `t` has noted the steps `xs`, numbered on from those that `s` had. -/
structure Notes (s t : Store) (xs : List Step) : Prop where
  tracing : t.tracing = s.tracing
  trace : t.trace.toList = s.trace.toList ++ xs
  numbered : Numbered s.trace.size xs

/-- `t` has gone on from `s`, and no step on the way has failed. -/
def Proceeds (s t : Store) : Prop := ∃ xs, s.Notes t xs ∧ Clean xs

/-- The steps of a run: clean ones, and after them the one that failed if the run did. -/
inductive Logs (s : Store) : EStateM.Result Clash Store Unit → Prop
  | ok {t : Store} : s.Proceeds t → Logs s (.ok () t)
  | error {t : Store} {xs : List Step} {x : Step} {clash : Clash} : s.Notes t (xs ++ [x]) →
      Clean xs → x.action = clash.action → Logs s (.error clash t)

section Notes

theorem Notes.refl (s : Store) : s.Notes s [] := ⟨rfl, by simp, rfl⟩

theorem Notes.trans (h : s.Notes t xs) (k : t.Notes u ys) : s.Notes u (xs ++ ys) where
  tracing := k.tracing.trans h.tracing
  trace := by rw [k.trace, h.trace, List.append_assoc]
  numbered := by
    have size : t.trace.size = s.trace.size + xs.length := by
      simpa using congrArg List.length h.trace
    exact h.numbered.append (size ▸ k.numbered)

theorem Notes.push {x : Step} (h : x.number = s.trace.size + 1) :
    s.Notes { s with trace := s.trace.push x } [x] :=
  ⟨rfl, by simp, by simp [Numbered, h]⟩

theorem Noted.notes {action : Action} {detail : String} (h : s.Noted action a b detail t)
    (on : s.tracing = true) : ∃ x, s.Notes t [x] ∧ x.action = action := by
  cases h with
  | off off => simp [on] at off
  | on => exact ⟨_, .push rfl, rfl⟩

theorem Proceeds.refl (s : Store) : s.Proceeds s := ⟨[], .refl s, List.forall_mem_nil _⟩

theorem Proceeds.trans (h : s.Proceeds t) (k : t.Proceeds u) : s.Proceeds u := by
  obtain ⟨xs, notes, clean⟩ := h
  obtain ⟨ys, notes', clean'⟩ := k
  exact ⟨xs ++ ys, notes.trans notes', clean.append clean'⟩

theorem Proceeds.tracing (h : s.Proceeds t) : t.tracing = s.tracing := by
  obtain ⟨_, notes, -⟩ := h
  exact notes.tracing

theorem Proceeds.merge (h : s.Proceeds t) (a b : Class) : s.Proceeds (t.merge a b) := by
  obtain ⟨xs, notes, clean⟩ := h
  exact ⟨xs, ⟨notes.tracing, notes.trace, notes.numbered⟩, clean⟩

theorem Proceeds.alloc (shape : Shape Class) (span : Span) (s : Store) :
    s.Proceeds (Store.alloc shape span s).2 :=
  ⟨[], ⟨rfl, (List.append_nil _).symm, rfl⟩, List.forall_mem_nil _⟩

theorem Proceeds.record {action : Action} (s : Store) (a b : Class) (detail : String)
    (h : action ≠ .error ∧ action ≠ .occursCheck) : s.Proceeds (s.record action a b detail) := by
  unfold Store.record
  split
  · exact ⟨_, .push rfl, List.forall_mem_singleton.mpr h⟩
  · exact .refl s

theorem Proceeds.noteParts (s : Store) (a b : Class) (p : Shape Class) :
    s.Proceeds (s.noteParts a b p) := by
  unfold Store.noteParts
  split
  · exact .record s a b _ (by decide)
  · exact .refl s

theorem Noted.proceeds {action : Action} {detail : String} (h : s.Noted action a b detail t)
    (ok : action ≠ .error ∧ action ≠ .occursCheck) : s.Proceeds t := by
  cases h with
  | off => exact .refl s
  | on => exact ⟨_, .push rfl, List.forall_mem_singleton.mpr ok⟩

theorem NotedParts.proceeds {p : Shape Class} (h : s.NotedParts a b p t) : s.Proceeds t := by
  cases h with
  | none => exact .refl s
  | some _ noted => exact noted.proceeds (by decide)

end Notes

section Runs

theorem Logs.fail {action : Action} {detail : String} {clash : Clash}
    (noted : s.Noted action a b detail t) (on : s.tracing = true) (h : action = clash.action) :
    s.Logs (.error clash t) := by
  obtain ⟨x, notes, last⟩ := noted.notes on
  have notes : s.Notes t ([] ++ [x]) := notes
  exact .error notes (List.forall_mem_nil _) (last.trans h)

/-- What is logged later comes after what was logged before. -/
theorem Logs.after {r : EStateM.Result Clash Store Unit} (before : s.Proceeds t)
    (on : s.tracing = true) (later : t.tracing = true → t.Logs r) : s.Logs r := by
  cases later (before.tracing.trans on) with
  | ok rest => exact .ok (before.trans rest)
  | @error u ys y _ notes clean last =>
    obtain ⟨xs, notes', clean'⟩ := before
    have all : s.Notes u (xs ++ ys ++ [y]) := by
      rw [List.append_assoc]
      exact notes'.trans notes
    exact .error all (clean'.append clean) last

/-- Pairs that are unified in order log their steps in order, up to the first that fails. -/
theorem Unifies.logs {pairs : List (Class × Class)} {r : EStateM.Result Clash Store Unit}
    (h : s.Unifies pairs r) (on : s.tracing = true) : s.Logs r := by
  induction h with
  | done => exact .ok (.refl _)
  | same _ noted _ ih => exact .after (noted.proceeds (by decide)) on ih
  | holes _ _ ih => exact .after ((Proceeds.refl _).merge _ _) on ih
  | filled _ _ noted _ ih => exact .after ((noted.proceeds (by decide)).merge _ _) on ih
  | infinite _ _ noted => exact .fail noted on rfl
  | clash _ noted => exact .fail noted on rfl
  | refused _ noted _ inner => exact .after noted.proceeds on inner
  | parts _ noted _ _ inner ih =>
    cases inner (noted.proceeds.tracing.trans on) with
    | ok within => exact .after ((noted.proceeds.trans within).merge _ _) on ih

theorem unifyParts_proceeds
    (ih : ∀ (a b : Class) (s t : Store), unifyWithin n a b s = .ok () t → s.Proceeds t)
    (pairs : List (Class × Class))
    (run : pairs.forM (fun x => unifyWithin n x.1 x.2) s = .ok () t) : s.Proceeds t := by
  induction pairs generalizing s with
  | nil =>
    cases run
    exact .refl _
  | cons x pairs tail =>
    change EStateM.bind (unifyWithin n x.1 x.2) (fun _ => pairs.forM _) s = _ at run
    rw [EStateM.bind] at run
    split at run
    next first => exact (ih _ _ _ _ first).trans (tail run)
    next => cases run

/-- A run that succeeds has gone on, whatever the store. -/
theorem unifyWithin_proceeds (run : unifyWithin n a b s = .ok () t) : s.Proceeds t := by
  induction n generalizing a b s t with
  | zero => cases run
  | succ n ih =>
    rw [unifyWithin_succ] at run
    generalize s.encounter a b = e at run
    cases e with
    | same =>
      cases run
      exact .record s _ _ _ (by decide)
    | holes =>
      cases run
      exact (Proceeds.refl s).merge _ _
    | fills hole other =>
      dsimp only at run
      split at run
      · cases run
      · cases run
        exact (Proceeds.record s _ _ _ (by decide)).merge _ _
    | parts p q =>
      dsimp only at run
      rw [EStateM.bind] at run
      split at run
      · next u inner =>
        cases run
        have parts := unifyParts_proceeds (fun _ _ _ _ => ih) _ inner
        exact ((Proceeds.noteParts s _ _ p).trans parts).merge _ _
      · cases run
    | clash => cases run

end Runs

section Calls

/-- A call that fails leaves every class as it was; what it did is in the trace. -/
structure Unchanged (s t : Store) : Prop where
  find (v : Class) : t.find v = s.find v
  resolve (v : Class) : t.resolve v = s.resolve v
  cell (v : Class) : t.cell v = s.cell v

theorem SameClasses.unchanged (h : s.SameClasses t) : s.Unchanged t where
  find v := by rw [h.find]
  resolve v := by
    have within (depth : Nat) : t.resolveWithin depth = s.resolveWithin depth := by
      induction depth with
      | zero => rfl
      | succ depth ih =>
        funext v
        rw [resolveWithin, resolveWithin, h.shape, ih]
    rw [Store.resolve, Store.resolve, h.size, within]
  cell v := by rw [Store.cell, Store.cell, h.find, h.cells]

/-- The steps of one call. -/
theorem Wf.unify_logs (hs : s.Wf) (on : s.tracing = true) (ha : a < s.size) (hb : b < s.size) :
    ∃ xs, (s.unify a b).2.trace.toList = s.trace.toList ++ xs ∧ Numbered s.trace.size xs ∧
      ((s.unify a b).1 = .ok () → Clean xs) ∧
      ∀ m, (s.unify a b).1 = .error m → (∃ ys y, xs = ys ++ [y] ∧ Clean ys ∧
        y.action = if m.infinite then .occursCheck else .error) ∧ s.Unchanged (s.unify a b).2 := by
  have logs := (unifies_unifyWithin hs ha hb).logs on
  rw [Store.unify]
  generalize unifyWithin s.size a b s = r at logs ⊢
  cases logs with
  | ok proceeds =>
    obtain ⟨xs, notes, clean⟩ := proceeds
    exact ⟨xs, notes.trace, notes.numbered, fun _ => clean, fun m failed => by cases failed⟩
  | @error t xs x clash notes clean last =>
    refine ⟨xs ++ [x], notes.trace, notes.numbered, fun ok => (by cases ok), fun m failed => ?_⟩
    cases failed
    refine ⟨⟨xs, x, rfl, clean, last.trans ?_⟩, SameClasses.unchanged ⟨rfl, rfl⟩⟩
    cases clash <;> rfl

end Calls

end Store

end Ordinance
