import ComplexSeries.Scalar

/-! What is relied on of the scalars, beyond their having the operations. Arithmetic may round: sums and
products obey no laws but that of the sign. Neither is it asked that a decimal is exact, or that a
printed scalar reads back. -/
namespace ComplexSeries.Scalar

/-- The laws by which a finite scalar is written as a sign and a magnitude. -/
class LawfulText (R : Type) [Scalar R] : Prop where
  isMissing_of_isFinite {a : R} : isFinite a = true → isMissing a = false
  isFinite_abs (a : R) : isFinite (abs a) = isFinite a
  isNegative_abs (a : R) : isNegative (abs a) = false
  abs_ofDecimal (d : Decimal) : abs (ofDecimal d : R) = ofDecimal d
  /-- What is read is zero or above it. -/
  ofDecimal_cases (d : Decimal) : isFinite (ofDecimal d : R) = true →
    (ofDecimal d : R) = zero ∨ (zero : R) < ofDecimal d
  ofDecimal_zero : (ofDecimal ⟨0, 0⟩ : R) = zero
  isFinite_infinity : isFinite (infinity : R) = false
  isFinite_missing : isFinite (missing : R) = false
  isFinite_zero : isFinite (zero : R) = true
  isFinite_one : isFinite (one : R) = true
  zero_lt_one : (zero : R) < one
  abs_one : abs (one : R) = one
  zero_beq_zero : ((zero : R) == zero) = true
  one_beq_one : ((one : R) == one) = true
  zero_beq_one : ((zero : R) == one) = false
  beq_zero_of_zero_lt {a : R} : zero < a → (a == zero) = false

/-- The laws by which the nearest of several intervals is told. -/
class LawfulOrder (R : Type) [Scalar R] : Prop where
  beq_self_of_beq {a b : R} : (a == b) = true → (a == a) = true ∧ (b == b) = true
  /-- Finite scalars are comparable. -/
  lt_of_not_lt {a b : R} : isFinite a = true → isFinite b = true → (a == b) = false → ¬b < a → a < b
  zero_lt_of_lt {a b : R} : zero < a → a < b → zero < b
  /-- The difference of two scalars does not vanish by rounding. -/
  zero_lt_sub {a b : R} : isFinite a = true → isFinite b = true → a < b → zero < b - a
  abs_sub_self {a b : R} : isFinite a = true → isFinite b = true →
    abs (a - a) + abs (b - b) = zero
  add_abs_not_lt_zero (a b : R) : ¬abs a + abs b < zero
  isMissing_zero : isMissing (zero : R) = false

/-- The laws by which zero and one change nothing. A sum with zero may take the sign from a zero, so
it is said of other scalars. -/
class LawfulNeutral (R : Type) [Scalar R] : Prop where
  beq_self {a : R} : isFinite a = true → (a == a) = true
  beq_comm (a b : R) : (a == b) = (b == a)
  abs_beq_zero (a : R) : (abs a == zero) = (a == zero)
  abs_of_zero_lt {a : R} : zero < a → abs a = a
  zero_sub_abs {a : R} : isFinite a = true → a < zero → zero - abs a = a
  zero_sub_zero : (zero : R) - zero = zero
  add_zero {a : R} : isFinite a = true → (a == zero) = false → a + zero = a
  zero_add {a : R} : isFinite a = true → (a == zero) = false → zero + a = a
  sub_zero {a : R} : isFinite a = true → a - zero = a
  mul_one {a : R} : isFinite a = true → a * one = a
  abs_mul_zero {a : R} : isFinite a = true → abs a * zero = zero

end ComplexSeries.Scalar
