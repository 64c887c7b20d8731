import Mathlib.Data.Rat.Lemmas
import Ordinance.Literal

namespace Ordinance

namespace Word

/-- The operation has a result, and it is exact. -/
def Yields (result : Checked Wide) (n : Int) : Prop := ∃ w, result = .ok w ∧ w.toInt = n

theorem toInt_widen (x : Int64) : (widen x).toInt = x.toInt :=
  BitVec.toInt_signExtend_of_le (by decide)

theorem toInt_widenUnsigned (x : UInt64) : (widenUnsigned x).toInt = x.toNat := by
  have lt : x.toNat < 18446744073709551616 := x.toNat_lt
  rw [widenUnsigned, BitVec.toInt_setWidth, UInt64.toNat_toBitVec]
  exact Int.bmod_eq_of_le (by omega) (by omega)

theorem toNat_magnitude (x : Int64) : (magnitude x).toNat = x.toInt.natAbs := by
  change x.toBitVec.abs.toNat = x.toBitVec.toInt.natAbs
  have lt := x.toBitVec.isLt
  rw [BitVec.toNat_abs, BitVec.msb_eq_toInt, BitVec.toInt_eq_toNat_cond]
  grind

theorem toInt_bounds (x : Int64) :
    -9223372036854775808 ≤ x.toInt ∧ x.toInt ≤ 9223372036854775807 :=
  ⟨x.minValue_le_toInt, Int.le_of_lt_add_one x.toInt_lt⟩

theorem toInt_ne_zero {x : Int64} (ne : x ≠ 0) : x.toInt ≠ 0 :=
  fun zero => ne (Int64.toInt_inj.mp zero)

theorem toInt_sign {x : Int64} (ne : x ≠ 0) : (sign x).toInt = x.toInt.sign := by
  have value := toInt_ne_zero ne
  unfold sign
  split
  next neg =>
    rw [Int.sign_eq_neg_one_of_neg (Int64.lt_iff_toInt_lt.mp neg)]
    decide
  next nonneg =>
    have nonneg : ¬ x.toInt < 0 := fun neg => nonneg (Int64.lt_iff_toInt_lt.mpr neg)
    rw [Int.sign_eq_one_of_pos (by omega)]
    decide

/-- The product of a word and a sign is a word of twice the length. -/
theorem mul_yields (x y : Int64) :
    Yields (mul (sign x) (widen y)) ((sign x).toInt * y.toInt) := by
  have bounds := toInt_bounds y
  have value : (sign x).toInt = -1 ∨ (sign x).toInt = 1 := by
    unfold sign
    split
    · exact .inl (by decide)
    · exact .inr (by decide)
  have fits : ¬ (sign x).smulOverflow (widen y) := by
    rw [BitVec.smulOverflow, toInt_widen]
    rcases value with value | value <;> rw [value] <;> simp <;> omega
  refine ⟨sign x * widen y, if_neg fits, ?_⟩
  rw [BitVec.toInt_mul_of_not_smulOverflow fits, toInt_widen]

theorem abs_yields (x : Int64) : Yields (abs (widen x)) x.toInt.natAbs := by
  have bounds := toInt_bounds x
  have ne : widen x ≠ .intMin 128 := by
    intro eq
    have value : x.toInt = (BitVec.intMin 128).toInt := by rw [← toInt_widen, eq]
    rw [value] at bounds
    exact absurd bounds (by decide)
  have fits : ¬ (widen x).negOverflow := by
    rw [BitVec.negOverflow_eq]
    simp [ne]
  refine ⟨(widen x).abs, if_neg fits, ?_⟩
  rw [BitVec.toInt_abs_eq_natAbs_of_ne_intMin ne, toInt_widen]

theorem div_yields (x : Wide) {y : Wide} (h : 0 < y.toInt) :
    Yields (div x y) (x.toInt.tdiv y.toInt) := by
  have ne : y ≠ 0 := by
    rintro rfl
    exact absurd h (by decide)
  have other : y ≠ -1#128 := by
    rintro rfl
    exact absurd h (by decide)
  have fits : ¬ x.sdivOverflow y := by
    rw [BitVec.sdivOverflow_eq, ← BitVec.neg_one_eq_allOnes]
    simpa using fun _ => other
  exact ⟨x.sdiv y, (if_neg ne).trans (if_neg fits), BitVec.toInt_sdiv_of_ne_or_ne x y (.inr other)⟩

/-- Repeated division ends, divides by zero at no step, and finds the greatest common divisor. -/
theorem gcd_exact (a b : UInt64) : ∃ g, gcd a b = .ok g ∧ g.toNat = Nat.gcd a.toNat b.toNat := by
  fun_induction gcd a b with
  | case1 a => exact ⟨a, rfl, by simp⟩
  | case2 a b ne r h _ ih =>
    rw [rem, if_neg ne] at h
    obtain rfl : a % b = r := Except.ok.inj h
    obtain ⟨g, run, value⟩ := ih
    refine ⟨g, run, ?_⟩
    rw [value, UInt64.toNat_mod, Nat.gcd_comm, ← Nat.gcd_rec, Nat.gcd_comm]
  | case3 a b ne t h =>
    rw [rem, if_neg ne] at h
    cases h

theorem ok_bind {α β : Type} (a : α) (f : α → OptionT Checked β) :
    (liftM (Except.ok a : Checked α) >>= f) = f a := rfl

theorem narrow_run (x : Wide) : (∃ w : Int64, w.toInt = x.toInt ∧ narrow x = pure w) ∨
    (¬ ∃ w : Int64, w.toInt = x.toInt) ∧ narrow x = failure := by
  unfold narrow
  split
  next fits =>
    have back := Int64.toInt_ofInt_of_le fits.1 (Int.lt_add_one_of_le fits.2)
    exact .inl ⟨.ofInt x.toInt, back, rfl⟩
  next outside =>
    refine .inr ⟨?_, rfl⟩
    rintro ⟨w, eq⟩
    exact outside (eq ▸ toInt_bounds w)

end Word

namespace Literal

open Word

def quotient (num den : Int64) : Rat := .divInt num.toInt den.toInt

/-- What is narrowed in the end is the ratio in lowest terms. -/
theorem ratio_run (num : Int64) {den : Int64} (ne : den ≠ 0) :
    ∃ n d : Wide, n.toInt = (quotient num den).num ∧
      d.toInt = (quotient num den).den ∧ ratio num den = do
        let n ← narrow n
        let d ← narrow d
        return .rat n d := by
  have value := toInt_ne_zero ne
  obtain ⟨g, runGcd, hg⟩ := gcd_exact (magnitude num) (magnitude den)
  have wide : (widenUnsigned g).toInt = Int.gcd den.toInt num.toInt := by
    rw [toInt_widenUnsigned, hg, toNat_magnitude, toNat_magnitude, Nat.gcd_comm, Int.gcd]
  have pos : 0 < (widenUnsigned g).toInt := by
    rw [wide]
    exact Int.natCast_pos.mpr (Int.gcd_pos_of_ne_zero_left _ value)
  obtain ⟨p, runMul, hp⟩ := mul_yields den num
  obtain ⟨n, runNum, hn⟩ := div_yields p pos
  obtain ⟨q, runAbs, hq⟩ := abs_yields den
  obtain ⟨d, runDen, hd⟩ := div_yields q pos
  refine ⟨n, d, ?_, ?_, ?_⟩
  · have divides : (Int.gcd den.toInt num.toInt : Int) ∣ den.toInt.sign * num.toInt :=
      (Int.gcd_dvd_right _ _).mul_left _
    rw [hn, hp, toInt_sign ne, wide, quotient, Rat.num_divInt, Int.tdiv_eq_ediv_of_dvd divides]
  · have divides : (Int.gcd den.toInt num.toInt : Int) ∣ den.toInt.natAbs :=
      Int.natCast_dvd_natCast.mpr (Nat.gcd_dvd_left _ _)
    rw [hd, hq, wide, quotient, Rat.den_divInt, if_neg value, Int.tdiv_eq_ediv_of_dvd divides,
      Int.natCast_ediv]
  · simp only [ratio, if_neg ne, runGcd, runMul, runNum, runAbs, runDen, ok_bind]

/-- A ratio is reduced exactly: no operation on the way overflows or divides by zero, and there is
no literal only for the denominator zero and where a part of the ratio in lowest terms is no
word. -/
theorem ratio_lowest_terms (num den : Int64) :
    (ratio num den).run = .ok (ratio? num den) ∧
    (ratio? num den = none ↔
      den = 0 ∨ ¬ ((∃ n : Int64, n.toInt = (quotient num den).num) ∧
        ∃ d : Int64, d.toInt = (quotient num den).den)) ∧
    ∀ l, ratio? num den = some l → ∃ n d : Int64, l = .rat n d ∧ 0 < d.toInt ∧
      Int.gcd n.toInt d.toInt = 1 ∧ n.toInt * den.toInt = num.toInt * d.toInt := by
  by_cases zero : den = 0
  · have run : ratio num den = failure := if_pos zero
    rw [ratio?, run]
    exact ⟨rfl, iff_of_true rfl (.inl zero), fun l found => by cases found⟩
  obtain ⟨n, d, hn, hd, run⟩ := ratio_run num zero
  rw [ratio?, run]
  rcases narrow_run n with ⟨n', value, fits⟩ | ⟨outside, none⟩
  · rw [fits, pure_bind]
    rcases narrow_run d with ⟨d', value', fits'⟩ | ⟨outside, none⟩
    · rw [fits', pure_bind]
      have num_eq : n'.toInt = (quotient num den).num := value.trans hn
      have den_eq : d'.toInt = (quotient num den).den := value'.trans hd
      refine ⟨rfl, iff_of_false (Option.some_ne_none _) ?_,
        fun l eq => ⟨n', d', (Option.some.inj eq).symm, ?_⟩⟩
      · rintro (isZero | outside)
        · exact zero isZero
        · exact outside ⟨⟨n', num_eq⟩, d', den_eq⟩
      · rw [num_eq, den_eq]
        have whole : ((quotient num den).den : Int) ≠ 0 := Int.natCast_ne_zero.mpr (Rat.den_nz _)
        exact ⟨Int.natCast_pos.mpr (Rat.den_pos _), Rat.reduced _,
          (Rat.divInt_eq_divInt_iff whole (toInt_ne_zero zero)).mp (Rat.num_divInt_den _)⟩
    · rw [none]
      refine ⟨rfl, iff_of_true rfl (.inr fun both => outside ?_), fun l found => by cases found⟩
      rw [hd]
      exact both.2
  · rw [none]
    refine ⟨rfl, iff_of_true rfl (.inr fun both => outside ?_), fun l found => by cases found⟩
    rw [hn]
    exact both.1

end Literal

end Ordinance
