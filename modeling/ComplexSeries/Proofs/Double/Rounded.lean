import ComplexSeries.Proofs.Double.Packed

/-! Rounding cuts a mantissa to the bits that fit. What is not below the least positive number keeps a
bit at least, so it does not become zero. -/
namespace ComplexSeries.Double

open Float.Model (Format UnpackedFloat totalExponent)
open Float.Model.UnpackedFloat

/-! ### Rounding -/

theorem mantissa_shiftRight (em : ExtendedMantissa) (k : Nat) :
    (em >>> k).mantissa = em.mantissa / 2 ^ k := by
  induction k with
  | zero => exact (Nat.div_one _).symm
  | succ k ih =>
    change (em >>> k).mantissa / 2 = _
    rw [ih, Nat.div_div_eq_div_mul, Nat.pow_succ]

theorem mantissa_ofMantissaAndAccuracy (m : Nat) (accuracy : Accuracy) :
    (ExtendedMantissa.ofMantissaAndAccuracy m accuracy).mantissa = m := by
  cases accuracy with
  | exact => rfl
  | inexact o => cases o <;> rfl

theorem le_roundedMantissa (em : ExtendedMantissa) : em.mantissa ≤ em.roundedMantissa := by
  obtain ⟨m, round, sticky⟩ := em
  cases round <;> cases sticky <;>
    simp [ExtendedMantissa.roundedMantissa, ExtendedMantissa.accuracy,
      Accuracy.roundToNearestEven]

theorem targetExponent_eq (t : Int) : Format.binary64.targetExponent t = max (t - 53) (-1074) := rfl

/-- How far a mantissa is shifted to the right. -/
def shift (m : Nat) (e : Int) : Nat :=
  (Format.binary64.targetExponent (totalExponent m e) - e).toNat

theorem shift_eq (m : Nat) (e : Int) : shift m e = (max (m.log2 + 1 + e - 53) (-1074) - e).toNat := rfl

theorem mantissa_shiftToTargetExponent (m : Nat) (e : Int) (accuracy : Accuracy) :
    (shiftToTargetExponent Format.binary64 m e accuracy).1.mantissa = m / 2 ^ shift m e := by
  change (ExtendedMantissa.ofMantissaAndAccuracy m accuracy >>> shift m e).mantissa = _
  rw [mantissa_shiftRight, mantissa_ofMantissaAndAccuracy]

theorem least_le_shift (m : Nat) (e : Int) : -1074 ≤ e + shift m e := by
  rw [shift_eq]
  omega

theorem div_shift_lt (m : Nat) (e : Int) : m / 2 ^ shift m e < 2 ^ 53 := by
  have hle : m.log2 + 1 ≤ 53 + shift m e := by
    rw [shift_eq]
    omega
  rw [Nat.div_lt_iff_lt_mul (Nat.two_pow_pos _), ← Nat.pow_add]
  exact Nat.lt_of_lt_of_le Nat.lt_log2_self (Nat.pow_le_pow_right (by decide) hle)

/-- Nothing is shifted out but what lies below a mantissa of full length. -/
theorem div_shift_pos {m : Nat} (hm : 0 < m) {e : Int} (he : -1074 ≤ e) :
    0 < m / 2 ^ shift m e := by
  have hle : shift m e ≤ m.log2 := by
    rw [shift_eq]
    omega
  refine Nat.div_pos ?_ (Nat.two_pow_pos _)
  exact (Nat.pow_le_pow_right (by decide) hle).trans (Nat.log2_self_le hm.ne')

/-- The mantissa after a shift to the bits that fit, before a carry is shifted out. -/
def rounded (m : Nat) (e : Int) (accuracy : Accuracy) : Nat :=
  (shiftToTargetExponent Format.binary64 m e accuracy).1.roundedMantissa

theorem roundWithAccuracy_eq (s : Sign) (m : Nat) (e : Int) (accuracy : Accuracy) :
    let r := rounded m e accuracy
    let t := e + shift m e
    r / 2 ^ shift r t = 0 ∧ roundWithAccuracy Format.binary64 s m e accuracy = .zero s ∨
      ∃ h, roundWithAccuracy Format.binary64 s m e accuracy =
        .finite s (r / 2 ^ shift r t) (t + shift r t) h := by
  intro r t
  have hmantissa := mantissa_shiftToTargetExponent r t .exact
  by_cases hzero : (shiftToTargetExponent Format.binary64 r t .exact).1.mantissa = 0
  · exact .inl ⟨hmantissa ▸ hzero, dif_pos hzero⟩
  · exact .inr ⟨hmantissa ▸ Nat.pos_of_ne_zero hzero,
      (dif_neg hzero).trans (finite_congr hmantissa rfl)⟩

theorem roundWithAccuracy_eq_finite (s : Sign) {m : Nat} (hm : 0 < m) {e : Int} (he : -1074 ≤ e)
    (accuracy : Accuracy) :
    ∃ m' e' h, roundWithAccuracy Format.binary64 s m e accuracy = .finite s m' e' h ∧
      m' < 2 ^ 53 ∧ -1074 ≤ e' := by
  have hrounded : 0 < rounded m e accuracy := by
    refine lt_of_lt_of_le ?_ (le_roundedMantissa (shiftToTargetExponent _ m e accuracy).1)
    rw [mantissa_shiftToTargetExponent]
    exact div_shift_pos hm he
  obtain ⟨hzero, -⟩ | ⟨h, hfinite⟩ := roundWithAccuracy_eq s m e accuracy
  · exact absurd hzero (div_shift_pos hrounded (least_le_shift m e)).ne'
  · exact ⟨_, _, h, hfinite, div_shift_lt _ _, least_le_shift _ _⟩

theorem round_eq_finite (s : Sign) {m : Nat} (hm : 0 < m) {e : Int} (he : -1074 ≤ e) :
    ∃ m' e' h, round Format.binary64 s m e = .finite s m' e' h ∧ m' < 2 ^ 53 ∧ -1074 ≤ e' := by
  refine roundWithAccuracy_eq_finite s ?_ ?_ .exact
  · rw [Nat.shiftLeft_eq]
    exact Nat.mul_pos hm (Nat.two_pow_pos _)
  · rw [targetExponent_eq]
    omega

end ComplexSeries.Double
