import ComplexSeries.Complex.Elementary
import ComplexSeries.Proofs.Double.Arithmetic
import ComplexSeries.Proofs.Double.Laws

/-! When a quotient is missing. The divisor is tested by its squared modulus, so it is taken for zero
if both squares are, and the quotient of other finite numbers is missing if products or the squared
modulus overflow. -/
namespace ComplexSeries.Complex

open Double
open Float.Model (Format)
open Float.Model.UnpackedFloat (add)

variable {z w : Complex Float}

/-- The squares of both components are rounded to zero. -/
def Vanishes (w : Complex Float) : Prop :=
  toRat w.re ^ 2 ≤ 2 ^ (-1075 : ℤ) ∧ toRat w.im ^ 2 ≤ 2 ^ (-1075 : ℤ)

/-- Both numbers reach the limit of what is finite, one below and one above zero. -/
def Opposite (x y : ℚ) : Prop := limit ≤ x ∧ y ≤ -limit ∨ x ≤ -limit ∧ limit ≤ y

theorem isFinite_iff : z.isFinite = true ↔ z.re.isFinite = true ∧ z.im.isFinite = true :=
  Bool.and_eq_true _ _ ▸ Iff.rfl

theorem isMissing_iff : z.isMissing = true ↔ z.re.isNaN = true ∨ z.im.isNaN = true :=
  Bool.or_eq_true _ _ ▸ Iff.rfl

/-! ### The squared modulus -/

theorem view_sq_eq_zero_iff {a : Float} (ha : a.isFinite = true) :
    view (a * a) = .zero .positive ↔ toRat a ^ 2 ≤ 2 ^ (-1075 : ℤ) := by
  have hpos := limit_pos
  have hsq : |toRat a * toRat a| = toRat a ^ 2 := by rw [abs_mul_self, sq]
  have hunsigned := unsigned_view_mul_self a
  obtain ⟨⟨s, h⟩, hle⟩ | ⟨⟨s, m, e, hm, h⟩, hlt, -⟩ | ⟨h, hge⟩ | ⟨h, hle⟩ := view_mul ha ha
  · rw [h] at hunsigned ⊢
    obtain rfl : s = .positive := hunsigned
    exact iff_of_true rfl (hsq ▸ hle)
  · exact iff_of_false (by simp [h]) (not_le.2 (hsq ▸ hlt))
  · refine iff_of_false (by simp [h]) (not_le.2 ?_)
    rw [sq]
    exact (zpow_lt_limit (by norm_num)).trans_le hge
  · rw [h] at hunsigned
    cases hunsigned

theorem normSq_beq_zero_iff (hw : w.isFinite = true) : (w.normSq == 0) = true ↔ Vanishes w := by
  obtain ⟨hre, him⟩ := isFinite_iff.1 hw
  rw [Vanishes, ← view_sq_eq_zero_iff hre, ← view_sq_eq_zero_iff him]
  constructor
  · intro hzero
    by_contra h
    have hpos : 0 < w.normSq := by
      refine zero_lt_iff.2 (positive_add (unsigned_view_mul_self _) (unsigned_view_mul_self _)
        (isNaN_mul hre hre) (isNaN_mul him him) (canonical_view _) (canonical_view _) ?_)
      exact not_and_or.1 h
    rw [beq_zero_of_zero_lt hpos] at hzero
    cases hzero
  · rintro ⟨hre, him⟩
    refine beq_zero_iff.2 ⟨.positive, ?_⟩
    change view (ofView (add Format.binary64 (view (w.re * w.re)) (view (w.im * w.im)))) = _
    rw [hre, him]
    exact view_ofView_zero _

theorem isNaN_normSq (hw : w.isFinite = true) : w.normSq.isNaN = false := by
  obtain ⟨hre, him⟩ := isFinite_iff.1 hw
  have hunsigned := unsigned_view_mul_self w.re
  have hunsigned' := unsigned_view_mul_self w.im
  rw [Bool.eq_false_iff]
  intro h
  obtain ⟨-, h⟩ | ⟨h, -⟩ := (isNaN_add_iff (isNaN_mul hre hre) (isNaN_mul him him)).1 h
  · rw [h] at hunsigned'
    cases hunsigned'
  · rw [h] at hunsigned
    cases hunsigned

/-! ### Quotients -/

section Numerators

variable {a b c d : Float}

theorem isNaN_add_mul_iff (ha : a.isFinite = true) (hb : b.isFinite = true) (hc : c.isFinite = true)
    (hd : d.isFinite = true) :
    (a * b + c * d).isNaN = true ↔ Opposite (toRat a * toRat b) (toRat c * toRat d) := by
  rw [isNaN_add_iff (isNaN_mul ha hb) (isNaN_mul hc hd), view_mul_eq_positive_iff ha hb,
    view_mul_eq_positive_iff hc hd, view_mul_eq_negative_iff ha hb, view_mul_eq_negative_iff hc hd]
  rfl

theorem isNaN_sub_mul_iff (ha : a.isFinite = true) (hb : b.isFinite = true) (hc : c.isFinite = true)
    (hd : d.isFinite = true) :
    (a * b - c * d).isNaN = true ↔ Opposite (toRat a * toRat b) (-(toRat c * toRat d)) := by
  rw [isNaN_sub_iff (isNaN_mul ha hb) (isNaN_mul hc hd), view_mul_eq_positive_iff ha hb,
    view_mul_eq_positive_iff hc hd, view_mul_eq_negative_iff ha hb, view_mul_eq_negative_iff hc hd,
    Opposite, neg_le_neg_iff, le_neg (a := limit) (b := toRat c * toRat d)]

end Numerators

theorem isMissing_div_iff (hz : z.isFinite = true) (hw : w.isFinite = true) :
    (div z w).isMissing = true ↔ Vanishes w ∨
      Opposite (toRat z.re * toRat w.re) (toRat z.im * toRat w.im) ∨
      Opposite (toRat z.im * toRat w.re) (-(toRat z.re * toRat w.im)) ∨
      w.normSq.isInf = true ∧ ((z.re * w.re + z.im * w.im).isInf = true ∨
        (z.im * w.re - z.re * w.im).isInf = true) := by
  obtain ⟨hzre, hzim⟩ := isFinite_iff.1 hz
  obtain ⟨hwre, hwim⟩ := isFinite_iff.1 hw
  rw [← normSq_beq_zero_iff hw, ← isNaN_add_mul_iff hzre hwre hzim hwim,
    ← isNaN_sub_mul_iff hzim hwre hzre hwim]
  by_cases hzero : (w.normSq == 0) = true
  · have hdiv : div z w = undefined := if_pos hzero
    rw [hdiv]
    exact iff_of_true rfl (.inl hzero)
  · have hdiv : div z w = ⟨(z.re * w.re + z.im * w.im) / w.normSq,
        (z.im * w.re - z.re * w.im) / w.normSq⟩ := if_neg hzero
    have hq := isNaN_normSq hw
    rw [Bool.not_eq_true] at hzero
    rw [hdiv, isMissing_iff, isNaN_div_iff hq hzero, isNaN_div_iff hq hzero, hzero]
    simp only [Bool.false_eq_true, false_or]
    tauto

theorem not_opposite_zero (x : ℚ) : ¬Opposite x 0 := by
  have hpos := limit_pos
  rintro (⟨-, h⟩ | ⟨-, h⟩) <;> linarith

theorem isMissing_sign_iff (hz : z.isFinite = true) (hnorm : z.norm.isFinite = true) :
    (sign z).isMissing = true ↔ toRat z.norm ^ 2 ≤ 2 ^ (-1075 : ℤ) ∨
      limit ≤ toRat z.norm ^ 2 ∧
        (limit ≤ |toRat z.re * toRat z.norm| ∨ limit ≤ |toRat z.im * toRat z.norm|) := by
  obtain ⟨hre, him⟩ := isFinite_iff.1 hz
  have hzero : toRat (0 : Float) = 0 := rfl
  have hfin : (0 : Float).isFinite = true := by decide +kernel
  have hfinite : (ofReal z.norm).isFinite = true := isFinite_iff.2 ⟨hnorm, hfin⟩
  have hleast : (0 : ℚ) ^ 2 ≤ 2 ^ (-1075 : ℤ) := by positivity
  have hsq : (z.norm * z.norm + 0 * 0).isInf = (z.norm * z.norm).isInf :=
    isInf_add_zero (mul_zero_view hfin)
  have hfirst : (z.re * z.norm + z.im * 0).isInf = (z.re * z.norm).isInf :=
    isInf_add_zero (mul_zero_view him)
  have hsecond : (z.im * z.norm - z.re * 0).isInf = (z.im * z.norm).isInf :=
    isInf_sub_zero (mul_zero_view hre)
  refine (isMissing_div_iff hz hfinite).trans ?_
  change (toRat z.norm ^ 2 ≤ _ ∧ toRat 0 ^ 2 ≤ _) ∨ Opposite _ (toRat z.im * toRat 0) ∨
    Opposite _ (-(toRat z.re * toRat 0)) ∨ (z.norm * z.norm + 0 * 0).isInf = true ∧
      ((z.re * z.norm + z.im * 0).isInf = true ∨ (z.im * z.norm - z.re * 0).isInf = true) ↔ _
  rw [hsq, hfirst, hsecond, isInf_mul_iff hnorm hnorm, isInf_mul_iff hre hnorm,
    isInf_mul_iff him hnorm, hzero, mul_zero, mul_zero, neg_zero, abs_mul_self, ← sq]
  simp only [hleast, and_true, not_opposite_zero, false_or]

/-- A quotient of finite numbers is missing if the squares of the divisor are rounded to zero, if
infinities of either sign meet in a numerator, or if a numerator and the squared modulus overflow. With
its own modulus for the divisor a number has a sign unless the square of the modulus is rounded to zero
or both overflow. -/
theorem isMissing_div_and_sign (hz : z.isFinite = true) :
    (∀ w : Complex Float, w.isFinite = true → ((div z w).isMissing = true ↔ Vanishes w ∨
      Opposite (toRat z.re * toRat w.re) (toRat z.im * toRat w.im) ∨
      Opposite (toRat z.im * toRat w.re) (-(toRat z.re * toRat w.im)) ∨
      w.normSq.isInf = true ∧ ((z.re * w.re + z.im * w.im).isInf = true ∨
        (z.im * w.re - z.re * w.im).isInf = true))) ∧
    (z.norm.isFinite = true → ((sign z).isMissing = true ↔ toRat z.norm ^ 2 ≤ 2 ^ (-1075 : ℤ) ∨
      limit ≤ toRat z.norm ^ 2 ∧
        (limit ≤ |toRat z.re * toRat z.norm| ∨ limit ≤ |toRat z.im * toRat z.norm|))) :=
  ⟨fun _ hw => isMissing_div_iff hz hw, isMissing_sign_iff hz⟩

theorem isMissing_div_and_sign_great :
    let z : Complex Float := ⟨1, 0⟩
    let w : Complex Float := ⟨1e200, 1e200⟩
    (z.isFinite = true ∧ w.isFinite = true ∧ ¬Vanishes w) ∧
      z.norm.isFinite = true ∧ ¬toRat z.norm ^ 2 ≤ 2 ^ (-1075 : ℤ) := by
  intro z w
  have hz : z.isFinite = true := by decide +kernel
  have hw : w.isFinite = true := by decide +kernel
  have hnorm : z.norm.isFinite = true := by decide +kernel
  have hdiv : ¬(div z w).isMissing = true := by decide +kernel
  have hsign : ¬(sign z).isMissing = true := by decide +kernel
  obtain ⟨hquotient, hown⟩ := isMissing_div_and_sign hz
  exact ⟨⟨hz, hw, fun h => hdiv ((hquotient w hw).2 (.inl h))⟩, hnorm,
    fun h => hsign ((hown hnorm).2 (.inl h))⟩

/-- The squared modulus of a number other than zero may be zero. -/
theorem isMissing_div_and_sign_tiny :
    let z : Complex Float := ⟨1e-200, 0⟩
    z.isFinite = true ∧ z.norm.isFinite = true ∧ z.isZero = false ∧ (div z z).isMissing = true ∧
      (sign z).isMissing = true := by
  decide +kernel

end ComplexSeries.Complex
