import Ordinance.Proofs.Ty.Instance
import Ordinance.Ty.Render

namespace Ordinance.Ty

section Legible

/-- The characters that stand next to the words in the text of a type. -/
def delimiters : List Char := ['(', ')', ',', ' ', '<', '>']

def IsWord (n : String) : Prop := n ≠ "" ∧ ∀ c ∈ n.toList, c ∉ delimiters

instance (n : String) : Decidable (IsWord n) :=
  @instDecidableAnd _ _ inferInstance (n.toList.decidableBAll (· ∉ delimiters))

-- Letters, digits and the underscore make words.
example : IsWord "abcdefghijklmnopqrstuvwxyzABCDEFGHIJKLMNOPQRSTUVWXYZ0123456789_" := by decide

/-- The words that are types themselves. -/
def reserved : List String := "any" :: BaseTy.all.map BaseTy.name

/-- The node can be told from others by its text: a tuple is not its only component, and a name is
a word of its own. -/
def Clear : Ty → Prop
  | tuple ts => 2 ≤ ts.length
  | arrow ps _ => 1 ≤ ps.length
  | struct n | enum n => IsWord n ∧ n ∉ reserved
  | base _ | option _ | array _ | any => True

instance : DecidablePred Clear
  | tuple ts => inferInstanceAs (Decidable (2 ≤ ts.length))
  | arrow ps _ => inferInstanceAs (Decidable (1 ≤ ps.length))
  | struct _ | enum _ => inferInstanceAs (Decidable (_ ∧ _))
  | base _ | option _ | array _ | any => inferInstanceAs (Decidable True)

/-- Nodes that can be told from one another. No name is both that of a struct and that of an
enum. -/
structure Legible (ns : List Ty) : Prop where
  clear : ∀ t ∈ ns, t.Clear
  apart : ∀ n, struct n ∈ ns → enum n ∉ ns

end Legible

section Nodes

variable {t d : Ty} {ts ps : List Ty} {w : String}

/-- A type whose text is a word. -/
def word? : Ty → Option String
  | base b => some b.name
  | struct n | enum n => some n
  | any => some "any"
  | arrow _ _ | tuple _ | option _ | array _ => none

/-- A type whose text is a word and another type in angle brackets. -/
def wrap? : Ty → Option (String × Ty)
  | option t => some ("option", t)
  | array t => some ("array", t)
  | base _ | struct _ | enum _ | any | arrow _ _ | tuple _ => none

theorem mem_nodes_self (t : Ty) : t ∈ t.nodes := by
  cases t <;> simp [nodes]

theorem nodes_subset_tuple (ht : t ∈ ts) : t.nodes ⊆ (tuple ts).nodes := by
  intro n hn
  rw [nodes, nodesAll_eq_flatMap]
  exact List.mem_append_left _ (List.mem_flatMap.mpr ⟨t, ht, hn⟩)

theorem nodes_subset_arrow {r : Ty} (ht : t ∈ r :: ps) : t.nodes ⊆ (arrow ps r).nodes := by
  intro n hn
  rw [nodes, nodesAll_eq_flatMap]
  refine List.mem_append_left _ ?_
  rcases List.mem_cons.mp ht with rfl | ht
  · exact List.mem_append_right _ hn
  · exact List.mem_append_left _ (List.mem_flatMap.mpr ⟨t, ht, hn⟩)

theorem nodes_subset_wrap (wrap : t.wrap? = some (w, d)) : d.nodes ⊆ t.nodes := by
  cases t with
  | option | array =>
    cases wrap
    intro n hn
    rw [nodes]
    exact List.mem_append_left _ hn
  | _ => cases wrap

end Nodes

section Text

def text (t : Ty) : List Char := t.render.toList

/-- What stands between the components of a tuple. -/
abbrev times : List Char := [' ', '*', ' ']

/-- What stands between the parameters of a function. -/
abbrev comma : List Char := [',', ' ']

/-- What stands between the parameters of a function and its result. -/
abbrev becomes : List Char := [' ', '-', '>', ' ']

/-- Types in parentheses, with something between them. -/
def bracket (sep : List Char) (ts : List Ty) : List Char :=
  '(' :: (sep.intercalate (ts.map text) ++ [')'])

theorem renderAll_eq_map (ts : List Ty) : renderAll ts = ts.map render := by
  induction ts with
  | nil => rfl
  | cons t ts ih => rw [renderAll, ih, List.map_cons]

theorem toList_bracket (sep : String) (ts : List Ty) :
    ("(" ++ sep.intercalate (renderAll ts) ++ ")").toList = bracket sep.toList ts := by
  have texts : (ts.map render).map String.toList = ts.map text := List.map_map
  simp [bracket, renderAll_eq_map, texts]

/-- A single parameter that is no function stands without parentheses. -/
def isBare : List Ty → Bool
  | [arrow _ _] => false
  | [_] => true
  | _ => false

/-- A word, and perhaps a type in angle brackets after it. -/
inductive Spelled : Ty → String → List Char → Prop
  | word {t : Ty} {w : String} : t.word? = some w → Spelled t w []
  | wrap {t d : Ty} {w : String} : t.wrap? = some (w, d) → Spelled t w ('<' :: (d.text ++ ['>']))

/-- A list in parentheses: of the components of a tuple, or of the parameters themselves. -/
inductive Bracketed : List Ty → List Char → List Ty → Prop
  | tuple (ts : List Ty) : Bracketed [tuple ts] times ts
  | params {ps : List Ty} : isBare ps = false → Bracketed ps comma ps

/-- The parameters of a function and their text. A type that is no function has the text that it has
as the only parameter of one. -/
inductive Front : List Ty → List Char → Prop
  | word {t : Ty} {w : String} {tail : List Char} : Spelled t w tail → Front [t] (w.toList ++ tail)
  | bracket {ps ts : List Ty} {sep : List Char} : Bracketed ps sep ts → Front ps (bracket sep ts)

theorem front_text {t : Ty} (bare : isBare [t] = true) : Front [t] t.text := by
  have word {w : String} (h : t.word? = some w) (text : t.text = w.toList) : Front [t] t.text := by
    simpa [text] using Front.word (.word h)
  have wrap {w : String} {d : Ty} (h : t.wrap? = some (w, d))
      (text : t.text = w.toList ++ '<' :: (d.text ++ ['>'])) : Front [t] t.text :=
    text ▸ .word (.wrap h)
  cases t with
  | arrow => cases bare
  | base => exact word rfl rfl
  | struct | enum => exact word rfl rfl
  | any => exact word rfl rfl
  | tuple ts =>
    rw [text, render, toList_bracket]
    exact .bracket (.tuple ts)
  | option | array => exact wrap rfl (by simp [text, render])

theorem render_params {ps : List Ty} (bare : isBare ps = false) (r : Ty) : render (arrow ps r) =
    "(" ++ ", ".intercalate (renderAll ps) ++ ")" ++ (" -> " ++ r.render) := by
  have close : ") -> " ++ r.render = ")" ++ (" -> " ++ r.render) := by
    rw [← String.append_assoc]
    rfl
  cases ps with
  | nil => simp [render, String.append_assoc, close]
  | cons p ps =>
    cases ps with
    | nil =>
      cases p with
      | arrow => simp [render, renderAll, String.append_assoc, close]
      | _ => cases bare
    | cons q ps => simp [render, String.append_assoc, close]

theorem text_arrow (ps : List Ty) (r : Ty) :
    ∃ a, Front ps a ∧ text (arrow ps r) = a ++ (becomes ++ r.text) := by
  cases bare : isBare ps with
  | false =>
    refine ⟨_, .bracket (.params bare), ?_⟩
    rw [text, render_params bare, String.toList_append, toList_bracket, String.toList_append]
    rfl
  | true =>
    cases ps with
    | nil => cases bare
    | cons p ps =>
      cases ps with
      | nil =>
        refine ⟨p.text, front_text bare, ?_⟩
        cases p with
        | arrow => cases bare
        | _ => simp [text, render]
      | cons => simp [isBare] at bare

/-- A type is written as a parameter is, and a function with its result after the parameters. -/
theorem text_cases (t : Ty) : Front [t] t.text ∨
    ∃ ps r a, t = arrow ps r ∧ Front ps a ∧ t.text = a ++ (becomes ++ r.text) := by
  cases t with
  | arrow ps r =>
    obtain ⟨a, front, text⟩ := text_arrow ps r
    exact .inr ⟨ps, r, a, rfl, front, text⟩
  | _ => exact .inl (front_text rfl)

end Text

section Words

variable {ns : List Ty} {t u d : Ty} {v w : String} {x y tail : List Char}

/-- The text is at its end or goes on with one of the characters. -/
def Follows (cs x : List Char) : Prop := ∀ c ∈ x.head?, c ∈ cs

/-- A text begins with one word only. -/
theorem IsWord.append_inj (hv : IsWord v) (hw : IsWord w) (hx : Follows delimiters x)
    (hy : Follows delimiters y) (same : v.toList ++ x = w.toList ++ y) : v = w ∧ x = y := by
  have none {z : List Char} (hz : Follows delimiters z) : z.takeWhile (· ∉ delimiters) = [] := by
    cases z with
    | nil => rfl
    | cons c z => exact List.takeWhile_cons_of_neg (by simpa using hz c rfl)
  have word {n : String} {z : List Char} (hn : IsWord n) (hz : Follows delimiters z) :
      (n.toList ++ z).takeWhile (· ∉ delimiters) = n.toList := by
    rw [List.takeWhile_append_of_pos (by simpa using hn.2), none hz, List.append_nil]
  have words : v.toList = w.toList := by rw [← word hv hx, same, word hw hy]
  rw [words] at same
  exact ⟨String.toList_inj.mp words, List.append_cancel_left same⟩

/-- No word begins like a list in parentheses. -/
theorem IsWord.append_ne (hw : IsWord w) : w.toList ++ x ≠ '(' :: y := by
  obtain ⟨nonempty, clear⟩ := hw
  intro same
  cases chars : w.toList with
  | nil => exact nonempty (String.toList_eq_nil_iff.mp chars)
  | cons c cs =>
    rw [chars, List.cons_append] at same
    obtain ⟨rfl, -⟩ := List.cons.inj same
    exact clear '(' (chars ▸ List.mem_cons_self) (by decide)

/-- The type that a word stands for. -/
def ofWord (ns : List Ty) (w : String) : Ty :=
  match BaseTy.all.find? (·.name == w) with
  | some b => base b
  | none => if w = "any" then any else if struct w ∈ ns then struct w else enum w

theorem ofWord_of_name (free : w ∉ reserved) :
    ofWord ns w = if struct w ∈ ns then struct w else enum w := by
  rw [reserved, List.mem_cons, not_or, List.mem_map, not_exists] at free
  have none : BaseTy.all.find? (·.name == w) = none := by
    refine List.find?_eq_none.mpr fun b hb => ?_
    simpa using fun eq => free.2 b ⟨hb, eq⟩
  rw [ofWord, none]
  exact if_neg free.1

theorem Legible.eq_ofWord (legible : Legible ns) (ht : t ∈ ns) (word : t.word? = some w) :
    t = ofWord ns w := by
  have clear := legible.clear t ht
  cases t with
  | base b =>
    cases word
    cases b <;> rfl
  | any =>
    cases word
    rfl
  | struct n =>
    cases word
    rw [ofWord_of_name clear.2, if_pos ht]
  | enum n =>
    cases word
    rw [ofWord_of_name clear.2, if_neg fun other => legible.apart _ other ht]
  | _ => cases word

theorem wrap_unique (wrapT : t.wrap? = some (w, d)) (wrapU : u.wrap? = some (w, d)) : t = u := by
  cases t <;> cases wrapT <;> cases u <;> simp_all [wrap?]

theorem Spelled.isWord (h : Spelled t w tail) (legible : Legible ns) (ht : t ∈ ns) :
    IsWord w := by
  have clear := legible.clear t ht
  cases h with
  | word word =>
    cases t with
    | base b =>
      cases word
      cases b <;> decide
    | any =>
      cases word
      decide
    | struct | enum =>
      cases word
      exact clear.1
    | _ => cases word
  | wrap wrap =>
    cases t with
    | option | array =>
      cases wrap
      decide
    | _ => cases wrap

end Words

section Reading

variable {ns : List Ty} {t u : Ty} {ps qs ts us : List Ty} {a b x y sep sep' : List Char}

/-- The characters that stand after a type. -/
def closers : List Char := [')', ',', '>', ' ']

/-- The text after a type that is not, where it stands, the parameter of a function. -/
def Stops (x : List Char) : Prop := Follows closers x ∧ ¬ becomes <+: x

/-- The text of the type, with something after it, is that of no other type. -/
def Reads (ns : List Ty) (t : Ty) : Prop := ∀ ⦃u : Ty⦄ ⦃x y : List Char⦄, t.nodes ⊆ ns →
  u.nodes ⊆ ns → Stops x → Stops y → t.text ++ x = u.text ++ y → t = u ∧ x = y

/-- Types that something stands before each of. -/
def items (sep : List Char) (ts : List Ty) : List Char := ts.flatMap (sep ++ ·.text)

theorem bracket_cons (sep : List Char) (t : Ty) (ts : List Ty) :
    bracket sep (t :: ts) = '(' :: (t.text ++ (items sep ts ++ [')'])) := by
  rw [bracket, List.map_cons, ← List.append_assoc]
  refine congrArg (fun z => '(' :: (z ++ [')'])) ?_
  induction ts generalizing t with
  | nil => simp [items]
  | cons u ts ih =>
    rw [List.map_cons, List.intercalate_cons_cons, ih u, items, items, List.flatMap_cons]
    simp only [List.append_assoc]

theorem stops_items (hsep : sep = times ∨ sep = comma) (ts : List Ty) (x : List Char) :
    Stops (items sep ts ++ ')' :: x) := by
  cases ts with
  | nil => simp [Stops, Follows, closers, items]
  | cons t ts => rcases hsep with rfl | rfl <;> simp [Stops, Follows, closers, items]

theorem items_inj (hsep : sep = times ∨ sep = comma) (hsep' : sep' = times ∨ sep' = comma)
    (reads : ∀ t ∈ ts, Reads ns t) (ht : ∀ t ∈ ts, t.nodes ⊆ ns) (hu : ∀ u ∈ us, u.nodes ⊆ ns)
    (same : items sep ts ++ ')' :: x = items sep' us ++ ')' :: y) :
    ts = us ∧ (ts ≠ [] → sep = sep') ∧ x = y := by
  induction ts generalizing us with
  | nil =>
    cases us with
    | nil => exact ⟨rfl, by simp, (List.cons.inj same).2⟩
    | cons u us => rcases hsep' with rfl | rfl <;> simp [items] at same
  | cons t ts ih =>
    cases us with
    | nil => rcases hsep with rfl | rfl <;> simp [items] at same
    | cons u us =>
      obtain ⟨readsT, readsTs⟩ := List.forall_mem_cons.mp reads
      obtain ⟨nodesT, nodesTs⟩ := List.forall_mem_cons.mp ht
      obtain ⟨nodesU, nodesUs⟩ := List.forall_mem_cons.mp hu
      obtain rfl : sep = sep' := by
        rcases hsep with rfl | rfl <;> rcases hsep' with rfl | rfl <;> simp [items] at same ⊢
      have first : t.text ++ (items sep ts ++ ')' :: x) = u.text ++ (items sep us ++ ')' :: y) := by
        simpa [items] using same
      obtain ⟨rfl, rest⟩ := readsT nodesT nodesU (stops_items hsep ts x) (stops_items hsep us y)
        first
      obtain ⟨rfl, -, rfl⟩ := ih readsTs nodesTs nodesUs rest
      exact ⟨rfl, fun _ => rfl, rfl⟩

/-- Types that are made of the nodes at hand, one at least. -/
structure Given (ns ts : List Ty) : Prop where
  some : 1 ≤ ts.length
  nodes : ∀ t ∈ ts, t.nodes ⊆ ns

theorem given_singleton (ht : t.nodes ⊆ ns) : Given ns [t] :=
  ⟨Nat.le_refl 1, fun _ hp => List.mem_singleton.mp hp ▸ ht⟩

theorem Legible.given_params {r : Ty} (legible : Legible ns) (ht : (arrow ps r).nodes ⊆ ns) :
    Given ns ps where
  some := legible.clear _ (ht (mem_nodes_self _))
  nodes _ hp := List.Subset.trans (nodes_subset_arrow (List.mem_cons_of_mem _ hp)) ht

theorem bracket_inj (hsep : sep = times ∨ sep = comma) (hsep' : sep' = times ∨ sep' = comma)
    (hts : Given ns ts) (hus : Given ns us) (reads : ∀ t ∈ ts, Reads ns t)
    (same : bracket sep ts ++ x = bracket sep' us ++ y) :
    ts = us ∧ (2 ≤ ts.length → sep = sep') ∧ x = y := by
  obtain ⟨t, ts, rfl⟩ := List.exists_cons_of_length_pos hts.some
  obtain ⟨u, us, rfl⟩ := List.exists_cons_of_length_pos hus.some
  obtain ⟨readsT, readsTs⟩ := List.forall_mem_cons.mp reads
  obtain ⟨nodesT, nodesTs⟩ := List.forall_mem_cons.mp hts.nodes
  obtain ⟨nodesU, nodesUs⟩ := List.forall_mem_cons.mp hus.nodes
  have first : t.text ++ (items sep ts ++ ')' :: x) = u.text ++ (items sep' us ++ ')' :: y) := by
    simpa [bracket_cons] using same
  obtain ⟨rfl, rest⟩ := readsT nodesT nodesU (stops_items hsep ts x) (stops_items hsep' us y) first
  obtain ⟨rfl, seps, rfl⟩ := items_inj hsep hsep' readsTs nodesTs nodesUs rest
  refine ⟨rfl, fun two => seps fun nil => ?_, rfl⟩
  simp [nil] at two

theorem Bracketed.separator (h : Bracketed ps sep ts) : sep = times ∨ sep = comma := by
  cases h with
  | tuple => exact .inl rfl
  | params => exact .inr rfl

/-- A tuple has two components at least, so it cannot be taken for one of them. -/
theorem Bracketed.given (h : Bracketed ps sep ts) (legible : Legible ns) (hp : Given ns ps) :
    Given ns ts ∧ (sep = times → 2 ≤ ts.length) := by
  cases h with
  | tuple =>
    have whole := hp.nodes _ List.mem_cons_self
    have two : 2 ≤ ts.length := legible.clear _ (whole (mem_nodes_self _))
    refine ⟨⟨Nat.le_of_succ_le two, fun t ht => ?_⟩, fun _ => two⟩
    exact List.Subset.trans (nodes_subset_tuple ht) whole
  | params => exact ⟨hp, by simp⟩

theorem Bracketed.inj (h : Bracketed ps sep ts) (k : Bracketed qs sep' us) (legible : Legible ns)
    (hp : Given ns ps) (hq : Given ns qs) (reads : ∀ t ∈ ts, Reads ns t)
    (same : bracket sep ts ++ x = bracket sep' us ++ y) : ps = qs ∧ x = y := by
  obtain ⟨hts, twoTs⟩ := h.given legible hp
  obtain ⟨hus, twoUs⟩ := k.given legible hq
  obtain ⟨rfl, seps, rfl⟩ := bracket_inj h.separator k.separator hts hus reads same
  refine ⟨?_, rfl⟩
  cases h with
  | tuple =>
    cases k with
    | tuple => rfl
    | params => cases seps (twoTs rfl)
  | params =>
    cases k with
    | tuple => cases seps (twoUs rfl)
    | params => rfl

theorem Spelled.follows {w : String} {tail : List Char} (h : Spelled t w tail)
    (hx : Follows closers x) : Follows delimiters (tail ++ x) := by
  have sub : closers ⊆ delimiters := by decide
  cases h with
  | word => exact fun c hc => sub (hx c hc)
  | wrap => simp [Follows, delimiters]

theorem Spelled.inj {v w : String} {tail tail' : List Char} (h : Spelled t v tail)
    (k : Spelled u w tail') (legible : Legible ns) (ht : t.nodes ⊆ ns) (hu : u.nodes ⊆ ns)
    (reads : ∀ k d, t.wrap? = some (k, d) → Reads ns d) (hx : Follows closers x)
    (hy : Follows closers y) (same : v.toList ++ tail ++ x = w.toList ++ tail' ++ y) :
    t = u ∧ x = y := by
  have memT := ht (mem_nodes_self t)
  have memU := hu (mem_nodes_self u)
  rw [List.append_assoc, List.append_assoc] at same
  obtain ⟨rfl, tails⟩ := (h.isWord legible memT).append_inj (k.isWord legible memU) (h.follows hx)
    (k.follows hy) same
  cases h with
  | word wordT =>
    cases k with
    | word wordU =>
      exact ⟨(legible.eq_ofWord memT wordT).trans (legible.eq_ofWord memU wordU).symm, tails⟩
    | wrap =>
      obtain rfl : x = _ := tails
      exact absurd (hx '<' rfl) (by decide)
  | wrap wrapT =>
    cases k with
    | word =>
      obtain rfl : y = _ := tails.symm
      exact absurd (hy '<' rfl) (by decide)
    | wrap wrapU =>
      have stops (z : List Char) : Stops ('>' :: z) := by simp [Stops, Follows, closers]
      have nodesT := List.Subset.trans (nodes_subset_wrap wrapT) ht
      have nodesU := List.Subset.trans (nodes_subset_wrap wrapU) hu
      simp only [List.cons_append, List.append_assoc, List.nil_append, List.cons.injEq,
        true_and] at tails
      obtain ⟨rfl, rest⟩ := reads _ _ wrapT nodesT nodesU (stops x) (stops y) tails
      exact ⟨wrap_unique wrapT wrapU, (List.cons.inj rest).2⟩

end Reading

section Render

variable {ns : List Ty} {t u : Ty} {ps qs : List Ty} {a b x y : List Char}

/-- The types that parameters are written with, between their delimiters. -/
def within : List Ty → List Ty
  | [base _] | [struct _] | [enum _] | [any] => []
  | [option t] | [array t] => [t]
  | [tuple ts] => ts
  | ps => ps

theorem Bracketed.within_eq {ts : List Ty} {sep : List Char} (h : Bracketed ps sep ts) :
    within ps = ts := by
  cases h with
  | tuple => rfl
  | params bare =>
    cases ps with
    | nil => rfl
    | cons p ps =>
      cases ps with
      | nil =>
        cases p with
        | arrow => rfl
        | _ => cases bare
      | cons => cases p <;> rfl

theorem mem_within {w : String} {d : Ty} (wrap : t.wrap? = some (w, d)) : d ∈ within [t] := by
  cases t with
  | option | array =>
    cases wrap
    exact List.mem_cons_self
  | _ => cases wrap

/-- The text of parameters, with something after it, is that of no others. -/
theorem Front.inj (h : Front ps a) (k : Front qs b) (legible : Legible ns) (hp : Given ns ps)
    (hq : Given ns qs) (reads : ∀ d ∈ within ps, Reads ns d) (hx : Follows closers x)
    (hy : Follows closers y) (same : a ++ x = b ++ y) : ps = qs ∧ x = y := by
  cases h with
  | word spelledT =>
    have nodesT := hp.nodes _ List.mem_cons_self
    cases k with
    | word spelledU =>
      have nodesU := hq.nodes _ List.mem_cons_self
      obtain ⟨rfl, rfl⟩ := spelledT.inj spelledU legible nodesT nodesU
        (fun _ _ wrap => reads _ (mem_within wrap)) hx hy same
      exact ⟨rfl, rfl⟩
    | bracket =>
      rw [List.append_assoc] at same
      exact absurd same (spelledT.isWord legible (nodesT (mem_nodes_self _))).append_ne
  | bracket bracketedT =>
    cases k with
    | word spelledU =>
      have nodesU := hq.nodes _ List.mem_cons_self
      rw [List.append_assoc] at same
      exact absurd same.symm (spelledU.isWord legible (nodesU (mem_nodes_self _))).append_ne
    | bracket bracketedU =>
      exact bracketedT.inj bracketedU legible hp hq (bracketedT.within_eq ▸ reads) same

theorem follows_becomes (x : List Char) : Follows closers (becomes ++ x) := by
  simp [Follows, closers]

theorem Front.reads (front : Front [t] t.text) (legible : Legible ns)
    (below : ∀ d ∈ within [t], Reads ns d) : Reads ns t := by
  intro u x y ht hu hx hy same
  rcases text_cases u with front' | ⟨qs, s, b, rfl, front', text⟩
  · obtain ⟨eq, rfl⟩ := front.inj front' legible (given_singleton ht) (given_singleton hu) below
      hx.1 hy.1 same
    exact ⟨(List.cons.inj eq).1, rfl⟩
  · rw [text, List.append_assoc, List.append_assoc] at same
    obtain ⟨-, rfl⟩ := front.inj front' legible (given_singleton ht) (legible.given_params hu) below
      hx.1 (follows_becomes _) same
    exact absurd (List.prefix_append _ _) hx.2

theorem reads_arrow {r : Ty} (legible : Legible ns) (below : ∀ d ∈ within ps, Reads ns d)
    (result : Reads ns r) : Reads ns (arrow ps r) := by
  intro u x y ht hu hx hy same
  obtain ⟨a, front, text⟩ := text_arrow ps r
  rw [text, List.append_assoc, List.append_assoc] at same
  rcases text_cases u with front' | ⟨qs, s, b, rfl, front', text'⟩
  · obtain ⟨-, rfl⟩ := front.inj front' legible (legible.given_params ht) (given_singleton hu) below
      (follows_becomes _) hy.1 same
    exact absurd (List.prefix_append _ _) hy.2
  · rw [text', List.append_assoc, List.append_assoc] at same
    obtain ⟨rfl, rest⟩ := front.inj front' legible (legible.given_params ht)
      (legible.given_params hu) below (follows_becomes _) (follows_becomes _) same
    have nodesR := List.Subset.trans (nodes_subset_arrow List.mem_cons_self) ht
    have nodesS := List.Subset.trans (nodes_subset_arrow List.mem_cons_self) hu
    obtain ⟨rfl, rfl⟩ := result nodesR nodesS hx hy (List.append_cancel_left rest)
    exact ⟨rfl, rfl⟩

/-- A parameter that stands without parentheses shows the types within it, so the induction is on
these as well. -/
theorem Legible.reads (legible : Legible ns) (t : Ty) :
    Reads ns t ∧ ∀ d ∈ within [t], Reads ns d := by
  have bare {t : Ty} (h : isBare [t] = true) (below : ∀ d ∈ within [t], Reads ns d) :
      Reads ns t ∧ ∀ d ∈ within [t], Reads ns d :=
    ⟨(front_text h).reads legible below, below⟩
  induction t using Ty.inductParts with
  | arrow ps r ihp ihr =>
    have below : ∀ d ∈ within ps, Reads ns d := by
      cases ps with
      | nil => exact List.forall_mem_nil _
      | cons p ps =>
        cases ps with
        | nil => exact (ihp p List.mem_cons_self).2
        | cons q ps =>
          have all : within (p :: q :: ps) = p :: q :: ps := by cases p <;> rfl
          exact all.symm ▸ fun d hd => (ihp d hd).1
    have reads := reads_arrow legible below ihr.1
    exact ⟨reads, List.forall_mem_singleton.mpr reads⟩
  | tuple ts ih => exact bare rfl fun d hd => (ih d hd).1
  | option t ih | array t ih => exact bare rfl (List.forall_mem_singleton.mpr ih.1)
  | _ => exact bare rfl (List.forall_mem_nil _)

/-- Types with the same text are the same type, if their nodes can be told from one another. -/
theorem render_inj (legible : Legible (t.nodes ++ u.nodes)) : t.render = u.render ↔ t = u := by
  refine ⟨fun same => ?_, congrArg render⟩
  have stops : Stops [] := by simp [Stops, Follows]
  have texts : t.text ++ [] = u.text ++ [] := by rw [text, same, ← text]
  exact ((legible.reads t).1 (List.subset_append_left _ _) (List.subset_append_right _ _) stops
    stops texts).1

-- A tuple of one component would be taken for the component.
example : (arrow [tuple [arrow [int] bool]] unit).render =
    (arrow [arrow [int] bool] unit).render := by
  decide

/-- A function of a function, and of a pair with a function in it. -/
def higher : Ty :=
  arrow [arrow [struct "Person"] (enum "Answer"), tuple [any, arrow [int] bool]]
    (option (array int))

/-- The same without one pair of parentheses: the second parameter has become the result. -/
def curried : Ty :=
  arrow [arrow [struct "Person"] (enum "Answer")]
    (arrow [tuple [any, arrow [int] bool]] (option (array int)))

theorem higher_render : Legible (higher.nodes ++ curried.nodes) ∧ higher.render =
    "(Person -> Answer, (any * integer -> boolean)) -> option<array<integer>>" ∧
    curried.render = "(Person -> Answer) -> (any * integer -> boolean) -> option<array<integer>>" ∧
    (higher.render = curried.render ↔ higher = curried) := by
  have legible : Legible (higher.nodes ++ curried.nodes) := by
    refine ⟨by decide, fun n hn => ?_⟩
    obtain rfl : n = "Person" := by simpa [higher, curried, nodes, nodesAll] using hn
    decide
  exact ⟨legible, by decide, by decide, render_inj legible⟩

end Render

end Ordinance.Ty
