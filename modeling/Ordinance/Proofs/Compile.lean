import Ordinance.Compile
import Ordinance.Proofs.Lift.Unplaced
import Ordinance.Proofs.Typing.Unplaced

namespace Ordinance

/-- What a diagnostic says, without where. -/
def Diagnostic.gist (d : Diagnostic) : Category × Option String × String :=
  (d.category, d.code, d.message)

section Gist

theorem gist_remark (d : Diagnostic) (side : Side) (text : String) :
    (Typing.Error.remark d side text).gist = d.gist := by
  unfold Typing.Error.remark
  split <;> rfl

theorem Typing.Error.gist_diagnostic (e : Typing.Error) : e.diagnostic.gist =
    (e.fault.category, some e.fault.category.code, e.fault.message) := by
  unfold diagnostic
  dsimp only
  split
  · rw [gist_remark, gist_remark]
    rfl
  all_goals rfl

theorem Typing.Error.gist_unplaced (e : Typing.Error) :
    e.unplaced.diagnostic.gist = e.diagnostic.gist := by
  rw [gist_diagnostic, gist_diagnostic]
  obtain ⟨fault, span⟩ := e
  cases fault <;> rfl

theorem Lift.Error.gist_unplaced (e : Lift.Error) :
    e.unplaced.diagnostic.gist = e.diagnostic.gist := by
  have gist (e : Lift.Error) : e.diagnostic.gist = (.internal, some Category.internal.code,
      "internal error: " ++ e.fault.message) := by
    unfold diagnostic
    dsimp only
    split <;> rfl
  rw [gist, gist]
  rfl

end Gist

/-- The computations draw the same numbers, and the second gives `f` of the result of the first, or
says the same where it fails. -/
def Agree {α β : Type} (f : α → β) (x : ExceptT Diagnostic Supply α)
    (y : ExceptT Diagnostic Supply β) : Prop :=
  ∀ n, (y n).2 = (x n).2 ∧
    (y n).1.mapError Diagnostic.gist = ((x n).1.map f).mapError Diagnostic.gist

namespace Agree

variable {α β γ δ : Type} {f : α → β} {g : γ → δ}

theorem pure {a : α} {b : β} (h : f a = b) : Agree f (Pure.pure a) (Pure.pure b) := by
  subst h
  exact fun _ => ⟨rfl, rfl⟩

theorem bind {x : ExceptT Diagnostic Supply α} {y : ExceptT Diagnostic Supply β}
    {k : α → ExceptT Diagnostic Supply γ} {l : β → ExceptT Diagnostic Supply δ} (h : Agree f x y)
    (next : ∀ a, Agree g (k a) (l (f a))) : Agree g (x >>= k) (y >>= l) := by
  intro n
  obtain ⟨number, result⟩ := h n
  change (ExceptT.bindCont l (y n).1 (y n).2).2 = (ExceptT.bindCont k (x n).1 (x n).2).2 ∧
    (ExceptT.bindCont l (y n).1 (y n).2).1.mapError _ =
      ((ExceptT.bindCont k (x n).1 (x n).2).1.map g).mapError _
  rw [number]
  cases hx : (x n).1 with
  | ok a =>
    cases hy : (y n).1 with
    | ok b =>
      rw [hx, hy] at result
      obtain rfl : b = f a := Except.ok.inj result
      exact next a (x n).2
    | error d =>
      rw [hx, hy] at result
      cases result
  | error d =>
    cases hy : (y n).1 with
    | ok b =>
      rw [hx, hy] at result
      cases result
    | error d' =>
      rw [hx, hy] at result
      exact ⟨rfl, congrArg Except.error (Except.error.inj result)⟩

theorem supply {c : Supply α} {d : Supply β} (h : Lift.Carries f c d) :
    Agree f (liftM c) (liftM d) := by
  intro n
  change (d n).2 = (c n).2 ∧ Except.ok (d n).1 = Except.ok (f (c n).1)
  rw [h n]
  exact ⟨rfl, rfl⟩

theorem diagnosed {ε : Type} {place : ε → ε} {diagnostic : ε → Diagnostic}
    (h : ∀ e, (diagnostic (place e)).gist = (diagnostic e).gist) (r : Except ε α) :
    Agree f (Ordinance.diagnosed diagnostic r)
      (Ordinance.diagnosed diagnostic ((r.map f).mapError place)) := by
  intro n
  cases r with
  | ok a => exact ⟨rfl, rfl⟩
  | error e => exact ⟨rfl, congrArg Except.error (h e)⟩

end Agree

/-- The result of a compilation without places and, if it is to be quiet, without its trace. -/
def Compiled.unplaced (quiet : Bool) (c : Compiled) : Compiled :=
  ⟨c.typed.unplaced, c.env, c.lifted.unplaced, if quiet then [] else c.trace⟩

theorem Compiled.stats_unplaced (quiet : Bool) (c : Compiled) :
    (c.unplaced quiet).stats = c.stats := by
  simp only [stats, unplaced, Program.size_unplaced]
  rw [Program.unplaced, List.length_map]

/-- Compilation does to the program without places what it does to the program. -/
theorem compile_agree (quiet tracing recheck : Bool) (p : Program Mark) :
    Agree (Compiled.unplaced quiet) (p.compile tracing recheck)
      (p.unplaced.compile (tracing && !quiet) recheck) := by
  rw [Program.compile, Program.compile, Program.check_unplaced]
  refine (Agree.diagnosed Typing.Error.gist_unplaced _).bind fun c => ?_
  have lifts : Lift.Carries (fun r => (r.map Program.unplaced).mapError Lift.Error.unplaced)
      c.program.lift.run c.program.unplaced.lift.run := Lift.program_erases c.program
  refine (Agree.supply lifts).bind fun r => ?_
  refine (Agree.diagnosed Lift.Error.gist_unplaced r).bind fun lifted => ?_
  cases recheck with
  | false => exact .pure rfl
  | true =>
    rw [if_pos rfl, if_pos rfl, Program.check_unplaced]
    refine (Agree.diagnosed Typing.Error.gist_unplaced _).bind fun l => .pure ?_
    cases quiet <;> rfl

section Runs

variable {p q : Program Mark} {recheck : Bool} {n m : Nat}

theorem compile_agree_of_unplaced_eq (same : p.unplaced = q.unplaced) (tracing tracing' : Bool) :
    (q.compile tracing' recheck n).2 = (p.compile tracing recheck n).2 ∧
      ((q.compile tracing' recheck n).1.map (Compiled.unplaced true)).mapError Diagnostic.gist =
        ((p.compile tracing recheck n).1.map (Compiled.unplaced true)).mapError
          Diagnostic.gist := by
  have quiet (b : Bool) : (b && !true) = false := by simp
  have left := compile_agree true tracing recheck p n
  have right := compile_agree true tracing' recheck q n
  rw [quiet, same] at left
  rw [quiet] at right
  exact ⟨right.1.symm.trans left.1, right.2.symm.trans left.2⟩

/-- Without tracing it makes no difference whether the trace is dropped, so there is none. -/
theorem compile_trace_eq_nil {c : Compiled} (run : p.compile false recheck n = (.ok c, m)) :
    c.trace = [] := by
  have kept := (compile_agree false false recheck p n).2
  have dropped := (compile_agree true false recheck p n).2
  rw [run] at kept dropped
  have same : c.unplaced false = c.unplaced true := Except.ok.inj (kept.symm.trans dropped)
  exact congrArg Compiled.trace same

end Runs

/-- Places and tracing do not matter to compilation. Of two programs that differ in places only, one
compiles if the other does, with the same types, the same lifted program, the same environment and
the same sizes, but for places; and if one is refused the other is, with the same message. There is
no trace where none is asked for. -/
theorem compile_places_irrelevant (p q : Program Mark) (same : p.unplaced = q.unplaced)
    (tracing tracing' recheck : Bool) (n : Nat) :
    (∀ c m, p.compile tracing recheck n = (.ok c, m) →
      (∃ d, q.compile tracing' recheck n = (.ok d, m) ∧ d.typed.unplaced = c.typed.unplaced ∧
        d.env = c.env ∧ d.lifted.unplaced = c.lifted.unplaced ∧ d.stats = c.stats) ∧
      (tracing = false → c.trace = [])) ∧
    (∀ x m, p.compile tracing recheck n = (.error x, m) →
      ∃ y, q.compile tracing' recheck n = (.error y, m) ∧ y.category = x.category ∧
        y.code = x.code ∧ y.message = x.message) := by
  obtain ⟨number, result⟩ := compile_agree_of_unplaced_eq same tracing tracing'
  rcases other : q.compile tracing' recheck n with ⟨r, k⟩
  constructor
  · intro c m run
    refine ⟨?_, fun off => compile_trace_eq_nil (off ▸ run)⟩
    rw [run, other] at number result
    obtain rfl : k = m := number
    cases r with
    | error y => cases result
    | ok d =>
      have eq : d.unplaced true = c.unplaced true := Except.ok.inj result
      obtain ⟨typed, env, lifted, -⟩ := Compiled.mk.inj eq
      have stats : d.stats = c.stats := by rw [← d.stats_unplaced true, eq, c.stats_unplaced]
      exact ⟨d, rfl, typed, env, lifted, stats⟩
  · intro x m run
    rw [run, other] at number result
    obtain rfl : k = m := number
    cases r with
    | ok d => cases result
    | error y =>
      obtain ⟨category, rest⟩ := Prod.mk.inj (Except.error.inj result)
      exact ⟨y, rfl, category, Prod.mk.inj rest⟩

/-- A definition by an array, all of it at one place. -/
def amounts (span : Span) : Program Mark where
  decls := ⟨∅, ∅⟩
  items :=
    [.definition ⟨⟨0, "amounts"⟩, .any, .array [.lit (.int 3) (.erased span)] (.erased span), span⟩]

/-- Once with a trace, and once elsewhere without. -/
theorem amounts_places_irrelevant :
    (amounts ⟨0, 3, 5⟩).unplaced = (amounts ⟨1, 8, 9⟩).unplaced ∧
    ∃ c d m, (amounts ⟨0, 3, 5⟩).compile true true 1 = (.ok c, m) ∧ c.trace.length = 7 ∧
      (amounts ⟨1, 8, 9⟩).compile false true 1 = (.ok d, m) ∧
      d.typed.unplaced = c.typed.unplaced ∧ d.env = c.env ∧
      d.lifted.unplaced = c.lifted.unplaced ∧ d.stats = c.stats := by
  have traced : ((amounts ⟨0, 3, 5⟩).compile true true 1).1.toOption.any
      (·.trace.length == 7) = true := by
    decide +kernel
  have same : (amounts ⟨0, 3, 5⟩).unplaced = (amounts ⟨1, 8, 9⟩).unplaced := rfl
  obtain ⟨c, m, run, length⟩ := exists_run traced
  obtain ⟨d, compiled, results⟩ :=
    ((compile_places_irrelevant _ _ same true false true 1).1 c m run).1
  exact ⟨same, c, d, m, run, by simpa using length, compiled, results⟩

end Ordinance
