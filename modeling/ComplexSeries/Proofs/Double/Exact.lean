import ComplexSeries.Proofs.Double.Order

/-! The exact values of double precision numbers, which are rational. The sign and the magnitude that
are read off the bits give the value, so a number is taken for whole exactly when it is. -/
namespace ComplexSeries.Double

open Float.Model (Format UnpackedFloat)
open Float.Model.UnpackedFloat

/-- The rational number that is unpacked; zero where none is. -/
def ratOf : UnpackedFloat → ℚ
  | .finite s m e _ => s.apply m * 2 ^ e
  | _ => 0

def toRat (a : Float) : ℚ := ratOf (view a)

/-! ### Fields -/

theorem magnitude_of_fields {a : Float} {s : Sign} {e : BitVec 11} {m : BitVec 52}
    (h : a.toModel.toBits.toBitVec = packed s e m) :
    Binary64.magnitude a =
      if e.toNat = 0 then ⟨m.toNat, -1074⟩ else ⟨m.toNat + 2 ^ 52, (e.toNat : ℤ) - 1075⟩ := by
  have hbits := bits_of_fields h
  have he : e.toNat < 2 ^ 11 := e.isLt
  have hm : m.toNat < 2 ^ 52 := m.isLt
  have hfraction : Binary64.bits a % 2 ^ 52 = m.toNat := by omega
  have hbiased : Binary64.bits a / 2 ^ 52 % 2 ^ 11 = e.toNat := by omega
  simp only [Binary64.magnitude, hfraction, hbiased]

theorem apply_eq (s : Sign) (n : ℕ) : (s.apply n : ℚ) = (if s == .negative then -1 else 1) * n := by
  cases s
  · exact (Int.cast_neg _).trans (neg_one_mul _).symm
  · exact (one_mul _).symm

/-- The sign and the magnitude that are read off the bits are those of the number. -/
theorem toRat_eq {a : Float} (h : a.isFinite = true) :
    toRat a = (if Binary64.isNegative a then -1 else 1) *
      ((Binary64.magnitude a).significand * 2 ^ (Binary64.magnitude a).exponent) := by
  obtain ⟨s, e, m, hfields⟩ := exists_packed a.toModel.toBits.toBitVec
  have hview : view a = unpack Format.binary64 (packed s e m) :=
    congrArg (unpack Format.binary64) hfields
  have hfinite : (view a).isFinite = true := h
  rw [isNegative_of_fields hfields, magnitude_of_fields hfields, toRat, hview]
  rw [hview] at hfinite
  by_cases hinf : e = -1#11
  · by_cases hz : m = 0#52
    · rw [hinf, hz, unpack_packed_infinity] at hfinite
      cases hfinite
    · rw [hinf, unpack_packed_notANumber hz] at hfinite
      cases hfinite
  by_cases hzero : e = 0#11
  · subst hzero
    rw [if_pos (show (0#11).toNat = 0 from rfl)]
    by_cases hz : m = 0#52
    · rw [hz, unpack_packed_zero]
      simp [ratOf]
    · rw [unpack_packed_subnormal (toNat_pos hz), ratOf, apply_eq, mul_assoc]
  · have hpos : 0 < e.toNat := toNat_pos hzero
    rw [if_neg hpos.ne', unpack_packed_normal hinf hzero, ratOf, apply_eq, mul_assoc, Nat.add_comm]

/-! ### Whole numbers -/

/-- A fraction with a sign is whole if its denominator divides it. -/
theorem signed_div_eq_iff {s k : ℤ} (hs : s * s = 1) {m unit : ℕ} (hunit : 0 < unit) :
    (s : ℚ) * (m / unit) = k ↔ m % unit = 0 ∧ s * (m / unit : ℕ) = k := by
  have hne : (unit : ℚ) ≠ 0 := Nat.cast_ne_zero.2 hunit.ne'
  constructor
  · intro h
    rw [← mul_div_assoc, div_eq_iff hne] at h
    have h : s * m = k * unit := by exact_mod_cast h
    have hm : (m : ℤ) = s * k * unit := by linear_combination s * h - m * hs
    have hdvd : unit ∣ m := Int.natCast_dvd_natCast.1 (hm ▸ dvd_mul_left _ _)
    refine ⟨Nat.mod_eq_zero_of_dvd hdvd, ?_⟩
    rw [Int.natCast_div, hm, Int.mul_ediv_cancel _ (by omega)]
    linear_combination k * hs
  · rintro ⟨hmod, rfl⟩
    rw [← Nat.cast_div (Nat.dvd_of_mod_eq_zero hmod) hne]
    push_cast
    rfl

/-- A number is whole as its fields tell if and only if it is. -/
theorem whole?_eq_some_iff {a : Float} {k : ℤ} :
    Binary64.whole? a = some k ↔ a.isFinite = true ∧ toRat a = k := by
  unfold Binary64.whole?
  by_cases hfinite : a.isFinite = true
  · rw [if_pos hfinite, toRat_eq hfinite]
    obtain ⟨m, e⟩ := Binary64.magnitude a
    generalize hs : (if Binary64.isNegative a = true then -1 else 1 : ℤ) = s
    have hcast : (if Binary64.isNegative a = true then -1 else 1 : ℚ) = s := by
      rw [← hs]
      push_cast
      rfl
    have hone : s * s = 1 := by
      rw [← hs]
      split <;> rfl
    rw [hcast]
    dsimp only
    rcases lt_or_ge e 0 with hneg | hnonneg
    · rw [if_neg (by omega)]
      have hpow : (m : ℚ) * 2 ^ e = m / (2 ^ e.natAbs : ℕ) := by
        obtain ⟨n, rfl⟩ : ∃ n : ℕ, e = -n := ⟨e.natAbs, by omega⟩
        simp [div_eq_mul_inv]
      rw [hpow, signed_div_eq_iff hone (Nat.two_pow_pos _)]
      simp [hfinite]
    · rw [if_pos hnonneg]
      have hpow : (2 : ℚ) ^ e = (2 ^ e.toNat : ℕ) := by
        obtain ⟨n, rfl⟩ : ∃ n : ℕ, e = n := ⟨e.toNat, by omega⟩
        simp
      rw [hpow, Option.some.injEq]
      constructor
      · rintro rfl
        exact ⟨hfinite, by push_cast; rfl⟩
      · rintro ⟨-, h⟩
        exact_mod_cast h
  · rw [if_neg hfinite]
    simp [hfinite]

end ComplexSeries.Double
