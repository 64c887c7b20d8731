import Ordinance.Proofs.Expr.Instance

namespace Ordinance.Expr

variable {μ ν κ ε σ : Type}

section Build

/-- The node with the parts and the mark. There is none with too many or too few parts. -/
def Head.build : Head → List (Expr ν) → ν → Expr ν
  | .var v, _, m => .var v m
  | .lit l, _, m => .lit l m
  | .tuple _, ds, m => .tuple ds m
  | .component i n, [d], m => .component d i n m
  | .record s names, ds, m => .record s (names.zip ds) m
  | .field s n, [d], m => .field d s n m
  | .inject n c, [d], m => .inject n c d m
  | .switch n names, d :: ds, m => .switch d n (names.zip ds) m
  | .op o, _, m => .op o m
  | .app _, d :: ds, m => .app d ds m
  | .lam ps ts, [d], m => .lam ps ts d m
  | .default _, ds, m =>
      match ds.reverse with
      | c :: j :: es => .default es.reverse j c m
      | _ => .raise .empty m
  | .raise x, _, m => .raise x m
  | .rescue x, [b, h], m => .rescue b x h m
  | .force, [d], m => .force d m
  | .array _, ds, m => .array ds m
  | .ite, [c, a, b], m => .ite c a b m
  | .assert, [d], m => .assert d m
  | .location l, _, m => .location l m
  | _, _, m => .raise .empty m

variable {m : Type → Type} [Monad m] [LawfulMonad m]

theorem mapMarksAllM_eq_mapM (f : μ → m ν) (es : List (Expr μ)) :
    mapMarksAllM f es = es.mapM (mapMarksM f) := by
  induction es with
  | nil => rfl
  | cons e es ih => simp [mapMarksAllM, ih]

theorem mapMarksNamedM_eq_mapM (f : μ → m ν) (fs : List (String × Expr μ)) :
    mapMarksNamedM f fs = (fs.map (·.1)).zip <$> (fs.map (·.2)).mapM (mapMarksM f) := by
  induction fs with
  | nil => simp [mapMarksNamedM]
  | cons x fs ih =>
    obtain ⟨n, e⟩ := x
    simp [mapMarksNamedM, ih]

/-- Every node is handled alike: first its parts, in order, and then its mark. -/
theorem mapMarksM_eq (f : μ → m ν) (e : Expr μ) : e.mapMarksM f = do
    let ds ← e.children.mapM (mapMarksM f)
    let k ← f e.mark
    return e.head.build ds k := by
  cases e <;> simp [mapMarksM, children, mark, head, Head.build, mapMarksAllM_eq_mapM,
    mapMarksNamedM_eq_mapM]

end Build

section Parts

variable {e : Expr μ} {ds : List (Expr ν)}

private theorem exists_of_length {n : Nat} (length : ds.length = n + 2) :
    ∃ es j c, ds = es ++ [j, c] ∧ es.length = n := by
  refine ⟨ds.take n, ?_⟩
  obtain ⟨j, c, rest⟩ : ∃ j c, ds.drop n = [j, c] := List.length_eq_two.mp (by simp [length])
  exact ⟨j, c, by rw [← rest, List.take_append_drop], by simp [length]⟩

/-- A node is taken apart into what it was built from. -/
theorem parts_build (length : ds.length = e.children.length) (k : ν) :
    (e.head.build ds k).head = e.head ∧ (e.head.build ds k).children = ds ∧
      (e.head.build ds k).mark = k := by
  cases e with
  | var | lit | op | raise | location =>
    obtain rfl := List.length_eq_zero_iff.mp length
    exact ⟨rfl, rfl, rfl⟩
  | tuple | array => exact ⟨by simpa [Head.build, head, children] using length, rfl, rfl⟩
  | component | field | inject | force | assert | lam =>
    obtain ⟨d, rfl⟩ := List.length_eq_one_iff.mp length
    exact ⟨rfl, rfl, rfl⟩
  | record s fs =>
    have names : ds.length = fs.length := by simpa [children] using length
    refine ⟨?_, ?_, rfl⟩
    · simp [Head.build, head, List.map_fst_zip, names]
    · simp [Head.build, head, children, List.map_snd_zip, names]
  | switch d n cs =>
    obtain ⟨d', ds, rfl⟩ := List.exists_cons_of_length_eq_add_one length
    have names : ds.length = cs.length := by simpa [children] using length
    refine ⟨?_, ?_, rfl⟩
    · simp [Head.build, head, List.map_fst_zip, names]
    · simp [Head.build, head, children, List.map_snd_zip, names]
  | app f es =>
    obtain ⟨d, ds, rfl⟩ := List.exists_cons_of_length_eq_add_one length
    exact ⟨by simpa [Head.build, head, children] using length, rfl, rfl⟩
  | default es j c =>
    obtain ⟨es', j', c', rfl, same⟩ := exists_of_length (n := es.length)
      (by simpa [children] using length)
    simp [Head.build, head, children, mark, same]
  | rescue =>
    obtain ⟨b, h, rfl⟩ := List.length_eq_two.mp length
    exact ⟨rfl, rfl, rfl⟩
  | ite =>
    obtain ⟨c, a, b, rfl⟩ := List.length_eq_three.mp length
    exact ⟨rfl, rfl, rfl⟩

theorem replaceChildren_eq {ds : List (Expr μ)} (length : ds.length = e.children.length) :
    e.replaceChildren ds = e.head.build ds e.mark := by
  cases e with
  | component | field | inject | force | assert | lam =>
    obtain ⟨d, rfl⟩ := List.length_eq_one_iff.mp length
    rfl
  | switch | app =>
    obtain ⟨d, ds, rfl⟩ := List.exists_cons_of_length_eq_add_one length
    rfl
  | default es j c =>
    obtain ⟨es', j', c', rfl, same⟩ := exists_of_length (n := es.length)
      (by simpa [children] using length)
    simp [replaceChildren, Head.build, head, mark, ← same]
  | rescue =>
    obtain ⟨b, h, rfl⟩ := List.length_eq_two.mp length
    rfl
  | ite =>
    obtain ⟨c, a, b, rfl⟩ := List.length_eq_three.mp length
    rfl
  | _ => rfl

end Parts

section Marks

variable {e : Expr μ} {d : Expr ν}

/-- The marks of all nodes: those of the parts, one part after the other, and then that of the
node. -/
def marks (e : Expr μ) : List μ := e.fold fun e below => below.flatten ++ [e.mark]

theorem marks_eq (e : Expr μ) : e.marks = e.children.flatMap marks ++ [e.mark] := by
  rw [marks, fold_eq]
  rfl

/-- The trees differ in their marks at most. -/
inductive SameShape : Expr μ → Expr ν → Prop
  | node {e : Expr μ} {d : Expr ν} : e.head = d.head →
      List.Forall₂ SameShape e.children d.children → SameShape e d

theorem length_marks (e : Expr μ) : e.marks.length = e.size := by
  have each {es : List (Expr μ)} (ih : ∀ e ∈ es, e.marks.length = e.size) :
      (es.flatMap marks).length = sizes es := by
    induction es with
    | nil => rfl
    | cons e es tail =>
      obtain ⟨here, rest⟩ := List.forall_mem_cons.mp ih
      rw [List.flatMap_cons, List.length_append, here, tail rest, sizes_cons]
  induction e using induct with
  | node e ih =>
    rw [marks_eq, size_eq, List.length_append, each ih, List.length_singleton, Nat.add_comm]

theorem SameShape.size_eq (h : e.SameShape d) : d.size = e.size := by
  have each {es : List (Expr μ)} {ds : List (Expr ν)} (parts : List.Forall₂ SameShape es ds)
      (ih : ∀ e ∈ es, ∀ {d : Expr ν}, e.SameShape d → d.size = e.size) : sizes ds = sizes es := by
    induction parts with
    | nil => rfl
    | cons first _ tail =>
      obtain ⟨here, rest⟩ := List.forall_mem_cons.mp ih
      rw [sizes_cons, sizes_cons, here first, tail rest]
  induction e using induct generalizing d with
  | node e ih =>
    obtain ⟨_, parts⟩ := h
    rw [Expr.size_eq, Expr.size_eq, each parts ih]

theorem SameShape.trans {c : Expr κ} (h : e.SameShape d) (k : d.SameShape c) : e.SameShape c := by
  have each {es : List (Expr μ)} {ds : List (Expr ν)} {cs : List (Expr κ)}
      (first : List.Forall₂ SameShape es ds) (second : List.Forall₂ SameShape ds cs)
      (ih : ∀ e ∈ es, ∀ {d : Expr ν} {c : Expr κ}, e.SameShape d → d.SameShape c → e.SameShape c) :
      List.Forall₂ SameShape es cs := by
    induction first generalizing cs with
    | nil =>
      cases second
      exact .nil
    | cons head _ tail =>
      obtain ⟨here, rest⟩ := List.forall_mem_cons.mp ih
      cases second with
      | cons head' second => exact .cons (here head head') (tail second rest)
  induction e using induct generalizing d c with
  | node e ih =>
    obtain ⟨head, parts⟩ := h
    obtain ⟨head', parts'⟩ := k
    exact .node (head.trans head') (each parts parts' ih)

/-- A tree is known from its shape and the list of its marks. -/
theorem SameShape.unique {d' : Expr ν} (h : e.SameShape d) (h' : e.SameShape d')
    (marks : d.marks = d'.marks) : d = d' := by
  have each {es : List (Expr μ)} {ds ds' : List (Expr ν)}
      (parts : List.Forall₂ SameShape es ds) (parts' : List.Forall₂ SameShape es ds')
      (ih : ∀ e ∈ es, ∀ {d d' : Expr ν}, e.SameShape d → e.SameShape d' → d.marks = d'.marks →
        d = d') (marks : ds.flatMap Expr.marks = ds'.flatMap Expr.marks) : ds = ds' := by
    induction parts generalizing ds' with
    | nil =>
      cases parts'
      rfl
    | cons head _ tail =>
      obtain ⟨here, rest⟩ := List.forall_mem_cons.mp ih
      cases parts' with
      | cons head' parts' =>
        rw [List.flatMap_cons, List.flatMap_cons] at marks
        -- The two first parts have equally many marks, so the lists split at the same place.
        have length := head.size_eq.trans head'.size_eq.symm
        rw [← length_marks, ← length_marks] at length
        obtain ⟨first, others⟩ := List.append_inj marks length
        rw [here head head' first, tail parts' rest others]
  induction e using induct generalizing d d' with
  | node e ih =>
    obtain ⟨head, parts⟩ := h
    obtain ⟨head', parts'⟩ := h'
    rw [marks_eq, marks_eq] at marks
    obtain ⟨below, own⟩ := List.append_inj' marks rfl
    exact eq_of_parts (head.symm.trans head') (List.cons.inj own).1 (each parts parts' ih below)

end Marks

section Runs

variable {α β γ δ : Type} {R : α → β → Prop} {S : γ → δ → Prop} {s : σ}

/-- Two runs end in the same state, with results that belong together or with the same error. -/
inductive Matches (R : α → β → Prop) : EStateM.Result ε σ α → EStateM.Result ε σ β → Prop
  | ok {a : α} {b : β} {t : σ} : R a b → Matches R (.ok a t) (.ok b t)
  | error {x : ε} {t : σ} : Matches R (.error x t) (.error x t)

theorem Matches.bind {x : EStateM ε σ α} {y : EStateM ε σ β} {f : α → EStateM ε σ γ}
    {g : β → EStateM ε σ δ} (first : Matches R (x s) (y s))
    (next : ∀ a b t, R a b → Matches S (f a t) (g b t)) :
    Matches S ((x >>= f) s) ((y >>= g) s) := by
  change Matches S (EStateM.bind x f s) (EStateM.bind y g s)
  rw [EStateM.bind, EStateM.bind]
  generalize x s = p at first ⊢
  generalize y s = q at first ⊢
  cases first with
  | ok related => exact next _ _ _ related
  | error => exact .error

/-- The same call made twice. -/
theorem Matches.same (x : EStateM.Result ε σ α) : Matches Eq x x := by
  cases x with
  | ok => exact .ok rfl
  | error => exact .error

theorem bind_ok {x : EStateM ε σ α} {f : α → EStateM ε σ β} {a : α} {t : σ}
    (first : x s = .ok a t) : (x >>= f) s = f a t := by
  change EStateM.bind x f s = f a t
  rw [EStateM.bind, first]

theorem bind_error {x : EStateM ε σ α} {f : α → EStateM ε σ β} {y : ε} {t : σ}
    (first : x s = .error y t) : (x >>= f) s = .error y t := by
  change EStateM.bind x f s = .error y t
  rw [EStateM.bind, first]

/-- What mapping the marks of a tree gives, beside the list of what they are mapped to. -/
def Remarks (e : Expr μ) (ns : List ν) (d : Expr ν) : Prop := e.SameShape d ∧ d.marks = ns

variable (f : μ → EStateM ε σ ν)

private theorem mapM_matches {es : List (Expr μ)}
    (each : ∀ e ∈ es, ∀ s, Matches (Remarks e) (e.marks.mapM f s) (e.mapMarksM f s)) (s : σ) :
    Matches (fun ns ds => List.Forall₂ SameShape es ds ∧ ds.flatMap marks = ns)
      ((es.flatMap marks).mapM f s) (es.mapM (mapMarksM f) s) := by
  induction es generalizing s with
  | nil => exact .ok ⟨.nil, rfl⟩
  | cons e es ih =>
    obtain ⟨head, tail⟩ := List.forall_mem_cons.mp each
    rw [List.flatMap_cons, List.mapM_append, List.mapM_cons]
    refine (head s).bind fun ns d t first => (ih tail t).bind fun ms ds t rest => ?_
    refine .ok ⟨.cons first.1 rest.1, ?_⟩
    rw [List.flatMap_cons, first.2, rest.2]

/-- Going over a tree is going over the list of its marks. -/
theorem mapMarksM_matches (e : Expr μ) (s : σ) :
    Matches (Remarks e) (e.marks.mapM f s) (e.mapMarksM f s) := by
  induction e using induct generalizing s with
  | node e ih =>
    have own : [e.mark].mapM f = f e.mark >>= fun k => pure [k] := by simp
    rw [marks_eq, List.mapM_append, own, mapMarksM_eq]
    -- On both sides the parts come first, so a failure in one of them keeps the mark from its call.
    refine (mapM_matches f ih s).bind fun ns ds t parts => ?_
    rw [bind_assoc]
    refine (Matches.same (f e.mark t)).bind fun k _ u same => ?_
    subst same
    obtain ⟨head, children, mark⟩ := parts_build parts.1.length_eq.symm k
    refine .ok ⟨.node head.symm (children.symm ▸ parts.1), ?_⟩
    rw [marks_eq, children, mark, parts.2]

end Runs

section Calls

/-- The function succeeds on the marks, one after the other. -/
inductive Calls (f : μ → EStateM ε σ ν) : σ → List μ → List ν → σ → Prop
  | nil {s : σ} : Calls f s [] [] s
  | cons {s t u : σ} {k : μ} {n : ν} {ks : List μ} {ns : List ν} : f k s = .ok n t →
      Calls f t ks ns u → Calls f s (k :: ks) (n :: ns) u

/-- The function fails on one of the marks, after it succeeds on those before. -/
def Fails (f : μ → EStateM ε σ ν) (s : σ) (ks : List μ) : Prop :=
  ∃ before k after ns t x u, ks = before ++ k :: after ∧ Calls f s before ns t ∧
    f k t = .error x u

/-- The function, which also notes down what it is called on. -/
def noting (f : μ → EStateM ε σ ν) (k : μ) : EStateM ε (σ × List μ) ν := fun s =>
  match f k s.1 with
  | .ok n t => .ok n (t, s.2 ++ [k])
  | .error x t => .error x (t, s.2 ++ [k])

variable {f : μ → EStateM ε σ ν} {s t u : σ} {k : μ} {n : ν} {ks ls : List μ} {ns : List ν} {x : ε}

theorem noting_ok (h : f k s = .ok n t) (seen : List μ) :
    noting f k (s, seen) = .ok n (t, seen ++ [k]) := by
  rw [noting, h]

theorem noting_error (h : f k s = .error x t) (seen : List μ) :
    noting f k (s, seen) = .error x (t, seen ++ [k]) := by
  rw [noting, h]

theorem Calls.noting (h : Calls f s ks ns t) (seen : List μ) :
    Calls (noting f) (s, seen) ks ns (t, seen ++ ks) := by
  induction h generalizing seen with
  | nil => exact (List.append_nil seen).symm ▸ .nil
  | @cons s t u k n ks ns first _ ih =>
    refine .cons (noting_ok first seen) ?_
    simpa using ih (seen ++ [k])

theorem Calls.mapM (h : Calls f s ks ns t) : ks.mapM f s = .ok ns t := by
  induction h with
  | nil => rfl
  | cons first _ ih =>
    rw [List.mapM_cons, bind_ok first, bind_ok ih]
    rfl

theorem Calls.mapM_error (h : Calls f s ks ns t) (fails : f k t = .error x u) :
    (ks ++ k :: ls).mapM f s = .error x u := by
  rw [List.mapM_append, List.mapM_cons, bind_ok h.mapM]
  exact bind_error (bind_error fails)

theorem Calls.mapMarksM {e : Expr μ} (h : Calls f s e.marks ns t) :
    ∃ d, e.mapMarksM f s = .ok d t ∧ e.SameShape d ∧ d.marks = ns := by
  have run := mapMarksM_matches f e s
  rw [h.mapM] at run
  generalize e.mapMarksM f s = r at run ⊢
  cases run with
  | ok remarks => exact ⟨_, rfl, remarks⟩

theorem Calls.mapMarksM_error {e : Expr μ} (marks : e.marks = ks ++ k :: ls)
    (h : Calls f s ks ns t) (fails : f k t = .error x u) : e.mapMarksM f s = .error x u := by
  have run := mapMarksM_matches f e s
  rw [marks, h.mapM_error fails] at run
  generalize e.mapMarksM f s = r at run ⊢
  cases run with
  | error => rfl

theorem calls_or_fails (f : μ → EStateM ε σ ν) (ks : List μ) (s : σ) :
    (∃ ns t, Calls f s ks ns t) ∨ Fails f s ks := by
  induction ks generalizing s with
  | nil => exact .inl ⟨[], s, .nil⟩
  | cons k ks ih =>
    cases first : f k s with
    | error x u => exact .inr ⟨[], k, ks, [], s, x, u, rfl, .nil, first⟩
    | ok n t =>
      obtain ⟨ns, u, calls⟩ | ⟨before, j, after, ns, u, x, v, rfl, calls, fails⟩ := ih t
      · exact .inl ⟨n :: ns, u, .cons first calls⟩
      · exact .inr ⟨k :: before, j, after, n :: ns, u, x, v, rfl, .cons first calls, fails⟩

theorem calls_pure (f : μ → ν) (ks : List μ) (s : σ) :
    Calls (fun k => (pure (f k) : EStateM ε σ ν)) s ks (ks.map f) s := by
  induction ks with
  | nil => exact .nil
  | cons k ks ih => exact .cons rfl ih

end Calls

section Agreement

/-- The function is called on every mark of the tree once, in the order of `marks`, up to the first
that it fails on. -/
structure Visits (f : μ → EStateM ε σ ν) (e : Expr μ) (s : σ) : Prop where
  total : (∃ ns t, Calls f s e.marks ns t) ∨ Fails f s e.marks
  ok {ns : List ν} {t : σ} : Calls f s e.marks ns t → ∃ d, e.mapMarksM f s = .ok d t ∧
    e.mapMarksM (noting f) (s, []) = .ok d (t, e.marks) ∧ e.SameShape d ∧ d.size = e.size ∧
    d.marks = ns
  error {before after : List μ} {k : μ} {ns : List ν} {x : ε} {t u : σ} :
    e.marks = before ++ k :: after → Calls f s before ns t → f k t = .error x u →
    e.mapMarksM f s = .error x u ∧
      e.mapMarksM (noting f) (s, []) = .error x (u, before ++ [k])

theorem mapMarksM_visits (f : μ → EStateM ε σ ν) (e : Expr μ) (s : σ) : Visits f e s where
  total := calls_or_fails f e.marks s
  ok calls := by
    obtain ⟨d, run, shape, marks⟩ := calls.mapMarksM
    obtain ⟨d', run', shape', marks'⟩ := (calls.noting []).mapMarksM
    obtain rfl := shape'.unique shape (marks'.trans marks.symm)
    exact ⟨d', run, run', shape, shape.size_eq, marks⟩
  error marks calls fails := by
    refine ⟨calls.mapMarksM_error marks fails, ?_⟩
    exact (calls.noting []).mapMarksM_error marks (noting_error fails _)

/-- Marks mapped twice are mapped once, by both functions. -/
theorem mapMarksM_mapMarksM (f : μ → ν) (g : ν → κ) (e : Expr μ) :
    (e.mapMarksM (fun k => pure (f k)) >>= mapMarksM fun n => pure (g n)) =
      (e.mapMarksM fun k => pure (g (f k)) : EStateM ε σ (Expr κ)) := by
  funext s
  obtain ⟨d, first, shape, marks⟩ := (calls_pure (ε := ε) f e.marks s).mapMarksM
  obtain ⟨c, second, shape', marks'⟩ := (calls_pure (ε := ε) g d.marks s).mapMarksM
  obtain ⟨c', both, shape'', marks''⟩ :=
    (calls_pure (ε := ε) (fun k => g (f k)) e.marks s).mapMarksM
  have same : c = c' := by
    refine (shape.trans shape').unique shape'' ?_
    rw [marks', marks'', marks, List.map_map]
    rfl
  rw [bind_ok first, second, both, same]

theorem parts_replaceChildren {e : Expr μ} {ds : List (Expr μ)}
    (length : ds.length = e.children.length) : (e.replaceChildren ds).children = ds ∧
      (e.replaceChildren ds).head = e.head ∧ (e.replaceChildren ds).mark = e.mark := by
  obtain ⟨head, children, mark⟩ := parts_build length e.mark
  rw [replaceChildren_eq length]
  exact ⟨children, head, mark⟩

/-- The ways to go over a tree agree on what its parts are and on their order. -/
theorem traversals_agree (e : Expr μ) :
    (e.marks = e.children.flatMap marks ++ [e.mark] ∧ e.marks.length = e.size) ∧
    (∀ {ν ε σ : Type} (f : μ → EStateM ε σ ν) (s : σ), Visits f e s) ∧
    (∀ ds : List (Expr μ), ds.length = e.children.length → (e.replaceChildren ds).children = ds ∧
      (e.replaceChildren ds).head = e.head ∧ (e.replaceChildren ds).mark = e.mark) ∧
    ∀ {ν κ ε σ : Type} (f : μ → ν) (g : ν → κ),
      (e.mapMarksM (fun k => pure (f k)) >>= mapMarksM fun n => pure (g n)) =
        (e.mapMarksM fun k => pure (g (f k)) : EStateM ε σ (Expr κ)) :=
  ⟨⟨marks_eq e, length_marks e⟩, fun f s => mapMarksM_visits f e s, fun _ => parts_replaceChildren,
    fun f g => mapMarksM_mapMarksM f g e⟩

/-- A tree whose marks number the nodes in the order of visits. -/
def numbered : Expr Nat :=
  switch (tuple [lit .unit 0, default [raise .empty 1] (lit .unit 2) (lit .unit 3) 4] 5) "Answer"
    [("No", lam [⟨0, "x"⟩] [.any] (lit .unit 6) 7), ("Yes", lam [⟨1, "y"⟩] [.any] (lit .unit 8) 9)]
    10

/-- Adds to every mark the number of calls before it, and refuses the mark 7. -/
def tally (k : Nat) : EStateM String Nat Nat := fun n =>
  if k = 7 then .error "seven" n else .ok (k + n) (n + 1)

theorem numbered_visits : numbered.marks = List.range 11 ∧
    numbered.mapMarksM tally 0 = .error "seven" 7 ∧
    numbered.mapMarksM (noting tally) (0, []) = .error "seven" (7, [0, 1, 2, 3, 4, 5, 6, 7]) ∧
    (numbered.replaceChildren [lit .unit 0, lit .unit 1, lit .unit 2]).children =
      [lit .unit 0, lit .unit 1, lit .unit 2] := by
  obtain ⟨-, visits, replaced, -⟩ := traversals_agree numbered
  have marks : numbered.marks = [0, 1, 2, 3, 4, 5, 6] ++ 7 :: [8, 9, 10] := rfl
  have calls : Calls tally 0 [0, 1, 2, 3, 4, 5, 6] [0, 2, 4, 6, 8, 10, 12] 7 :=
    .cons rfl (.cons rfl (.cons rfl (.cons rfl (.cons rfl (.cons rfl (.cons rfl .nil))))))
  obtain ⟨stopped, noted⟩ := (visits tally 0).error marks calls rfl
  exact ⟨rfl, stopped, noted, (replaced [lit .unit 0, lit .unit 1, lit .unit 2] rfl).1⟩

end Agreement

end Ordinance.Expr
