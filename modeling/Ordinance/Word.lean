namespace Ordinance.Word

/-- Why an operation on words has no result. -/
inductive Trap where
  | overflow
  | divisionByZero
deriving DecidableEq

/-- Computations on words, which stop at the first operation that has no exact result. -/
abbrev Checked := Except Trap

/-- The signed words of twice the length. -/
abbrev Wide := BitVec 128

def widen (x : Int64) : Wide := x.toBitVec.signExtend 128

def widenUnsigned (x : UInt64) : Wide := x.toBitVec.setWidth 128

/-- The distance from zero, which an unsigned word has room for. -/
def magnitude (x : Int64) : UInt64 := ⟨x.toBitVec.abs⟩

/-- `-1` or `1`, as the number is below zero or not. -/
def sign (x : Int64) : Wide := if x < 0 then -1 else 1

def mul (a b : Wide) : Checked Wide :=
  if a.smulOverflow b then throw .overflow else pure (a * b)

/-- Division towards zero. -/
def div (a b : Wide) : Checked Wide :=
  if b = 0 then throw .divisionByZero
  else if a.sdivOverflow b then throw .overflow
  else pure (a.sdiv b)

def abs (a : Wide) : Checked Wide := if a.negOverflow then throw .overflow else pure a.abs

def rem (a b : UInt64) : Checked UInt64 :=
  if b = 0 then throw .divisionByZero else pure (a % b)

theorem rem_lt {a b r : UInt64} (h : rem a b = .ok r) : r.toNat < b.toNat := by
  unfold rem at h
  split at h
  next => cases h
  next ne =>
    cases h
    have pos : 0 < b.toNat := Nat.pos_of_ne_zero fun zero => ne (UInt64.toNat_inj.mp zero)
    rw [UInt64.toNat_mod]
    exact Nat.mod_lt _ pos

/-- The greatest common divisor, by repeated division. -/
def gcd (a b : UInt64) : Checked UInt64 :=
  if b = 0 then pure a
  else
    match h : rem a b with
    | .ok r =>
        have := rem_lt h
        gcd b r
    | .error t => .error t
termination_by b.toNat

/-- The word for the number. -/
def fit (n : Int) : Checked Int64 :=
  if Int64.minValue.toInt ≤ n ∧ n ≤ Int64.maxValue.toInt then pure (.ofInt n) else throw .overflow

/-- The word of the usual length for the same number, if there is one. -/
def narrow (x : Wide) : OptionT Checked Int64 :=
  if Int64.minValue.toInt ≤ x.toInt ∧ x.toInt ≤ Int64.maxValue.toInt then return .ofInt x.toInt
  else failure

end Ordinance.Word
