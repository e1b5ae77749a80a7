import ComplexSeries.Scalar.Double
import ComplexSeries.Proofs.Scalar.Laws
import ComplexSeries.Proofs.Double.Neutral

/-! Double precision numbers keep the laws asked of scalars. -/
namespace ComplexSeries.Double

open Float.Model (Format UnpackedFloat)
open Float.Model.UnpackedFloat

theorem isNaN_of_isFinite {a : Float} (h : a.isFinite = true) : a.isNaN = false := by
  have hne := view_ne_notANumber h
  change (view a).isNaN = false
  cases hu : view a with
  | notANumber => exact absurd hu hne
  | _ => rfl

instance : Scalar.LawfulText Float where
  isMissing_of_isFinite := isNaN_of_isFinite
  isFinite_abs := isFinite_abs
  isNegative_abs := isNegative_abs
  abs_ofDecimal d := abs_eq_self (unsigned_ofDecimal d)
  ofDecimal_cases d := eq_zero_or_zero_lt (unsigned_ofDecimal d)
  ofDecimal_zero := rfl
  isFinite_infinity := by decide +kernel
  isFinite_missing := by decide +kernel
  isFinite_zero := by decide +kernel
  isFinite_one := by decide +kernel
  zero_lt_one := by decide +kernel
  abs_one := by decide +kernel
  zero_beq_zero := by decide +kernel
  one_beq_one := by decide +kernel
  zero_beq_one := by decide +kernel
  beq_zero_of_zero_lt := beq_zero_of_zero_lt

instance : Scalar.LawfulOrder Float where
  beq_self_of_beq := beq_self_of_beq
  lt_of_not_lt := lt_of_not_lt
  zero_lt_of_lt := zero_lt_of_lt
  zero_lt_sub := sub_pos
  abs_sub_self ha hb := by
    change Float.abs _ + Float.abs _ = 0
    rw [sub_self ha, sub_self hb]
    decide +kernel
  add_abs_not_lt_zero := add_abs_not_lt_zero
  isMissing_zero := by decide +kernel

instance : Scalar.LawfulNeutral Float where
  beq_self h := beq_self_of_isNaN (isNaN_of_isFinite h)
  beq_comm := beq_comm
  abs_beq_zero := abs_beq_zero
  abs_of_zero_lt := abs_of_zero_lt
  zero_sub_abs _ := zero_sub_abs
  zero_sub_zero := by decide +kernel
  add_zero _ := add_zero
  zero_add _ := zero_add
  sub_zero _ := sub_zero _
  mul_one _ := mul_one _
  abs_mul_zero := abs_mul_zero

end ComplexSeries.Double
