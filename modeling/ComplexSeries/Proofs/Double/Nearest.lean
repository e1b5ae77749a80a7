import ComplexSeries.Proofs.Double.Exact

/-! Rounding to the nearest number, halves to the even one. What is at most half the least positive
number becomes zero, and what lies at least halfway from the greatest number to the next power of two
becomes infinite. -/
namespace ComplexSeries.Double

open Float.Model (Format UnpackedFloat totalExponent)
open Float.Model.UnpackedFloat

/-! ### Halves to the even neighbour -/

theorem roundShift_eq (n k : ℕ) : Binary64.roundShift n k =
    if 2 ^ k < 2 * (n % 2 ^ k) ∨ 2 * (n % 2 ^ k) = 2 ^ k ∧ n / 2 ^ k % 2 = 1 then n / 2 ^ k + 1
    else n / 2 ^ k := by
  simp only [Binary64.roundShift, Bool.or_eq_true, Bool.and_eq_true, decide_eq_true_iff]

/-- The bits kept besides a mantissa tell on which side of a half the rest lies. -/
theorem shiftRight_eq (m k : ℕ) :
    ExtendedMantissa.ofMantissaAndAccuracy m .exact >>> k =
      ⟨m / 2 ^ k, decide (2 ^ k ≤ 2 * (m % 2 ^ k)),
        decide (m % 2 ^ k ≠ 0 ∧ 2 * (m % 2 ^ k) ≠ 2 ^ k)⟩ := by
  induction k with
  | zero =>
    simp [Nat.mod_one]
    rfl
  | succ k ih =>
    change (ExtendedMantissa.ofMantissaAndAccuracy m .exact >>> k).shiftRightOne = _
    have hlt : m % 2 ^ k < 2 ^ k := Nat.mod_lt _ (Nat.two_pow_pos k)
    have hbit : m / 2 ^ k % 2 = 0 ∨ m / 2 ^ k % 2 = 1 := by omega
    rw [ih, ExtendedMantissa.shiftRightOne, Nat.mod_pow_succ, Nat.div_div_eq_div_mul, Nat.pow_succ]
    generalize 2 ^ k = d at *
    generalize m % d = r at *
    generalize m / d % 2 = bit at *
    congr 1
    · rcases hbit with rfl | rfl <;> simp <;> omega
    · rw [← Bool.decide_or, decide_eq_decide]
      rcases hbit with rfl | rfl <;> omega

theorem roundedMantissa_eq (m : ℕ) (round sticky : Bool) :
    (ExtendedMantissa.mk m round sticky).roundedMantissa =
      if round = true ∧ (sticky = true ∨ m % 2 = 1) then m + 1 else m := by
  cases round <;> cases sticky <;>
    simp [ExtendedMantissa.roundedMantissa, ExtendedMantissa.accuracy, Accuracy.roundToNearestEven]
  split <;> omega

theorem roundedMantissa_shiftRight (m k : ℕ) :
    (ExtendedMantissa.ofMantissaAndAccuracy m .exact >>> k).roundedMantissa =
      Binary64.roundShift m k := by
  have hlt : m % 2 ^ k < 2 ^ k := Nat.mod_lt _ (Nat.two_pow_pos k)
  rw [shiftRight_eq, roundedMantissa_eq, roundShift_eq]
  simp only [decide_eq_true_iff]
  exact if_congr (by omega) rfl rfl

theorem le_roundShift_iff {c : ℕ} (hc : 0 < c) (n k : ℕ) :
    c ≤ Binary64.roundShift n k ↔
      (2 * c - 1) * 2 ^ k < 2 * n ∨ (2 * c - 1) * 2 ^ k = 2 * n ∧ c % 2 = 0 := by
  rw [roundShift_eq]
  have hn : 2 ^ k * (n / 2 ^ k) + n % 2 ^ k = n := Nat.div_add_mod n _
  have hlt : n % 2 ^ k < 2 ^ k := Nat.mod_lt _ (Nat.two_pow_pos k)
  generalize n / 2 ^ k = q at *
  generalize n % 2 ^ k = r at *
  generalize 2 ^ k = d at *
  subst hn
  -- Rounding adds at most one, so what is cut off decides only where the quotient is one short of `c`.
  obtain hle | rfl | hge : c ≤ q ∨ c = q + 1 ∨ q + 2 ≤ c := by omega
  · have hmul : (2 * c - 1) * d < 2 * (d * q) := by
      calc (2 * c - 1) * d < (2 * q) * d := Nat.mul_lt_mul_of_pos_right (by omega) (by omega)
        _ = 2 * (d * q) := by ring
    constructor
    · intro
      omega
    · intro
      split <;> omega
  · have hmul : (2 * (q + 1) - 1) * d = 2 * (d * q) + d := by
      rw [show 2 * (q + 1) - 1 = 2 * q + 1 by omega]
      ring
    rw [hmul]
    split <;> omega
  · have hmul : 2 * (d * q) + 3 * d ≤ (2 * c - 1) * d := by
      calc 2 * (d * q) + 3 * d = (2 * q + 3) * d := by ring
        _ ≤ (2 * c - 1) * d := Nat.mul_le_mul_right d (by omega)
    constructor
    · intro h
      exfalso
      split at h <;> omega
    · intro h
      omega

/-- An even number is reached from a half below it on, the half included. -/
theorem le_roundShift_iff_of_even {c : ℕ} (hc : 0 < c) (heven : c % 2 = 0) (n k : ℕ) :
    c ≤ Binary64.roundShift n k ↔ (2 * c - 1) * 2 ^ k ≤ 2 * n := by
  rw [le_roundShift_iff hc, le_iff_lt_or_eq]
  simp [heven]

/-! ### Where rounding leaves the range -/

section

variable {m : ℕ} {e : ℤ}

/-- The exponent that a number is rounded to, if it does not grow. -/
theorem add_shift_eq (he : e ≤ max (m.log2 + e - 52) (-1074)) :
    e + shift m e = max (m.log2 + e - 52) (-1074) := by
  rw [shift_eq]
  omega

theorem roundShift_le (m : ℕ) (e : ℤ) : Binary64.roundShift m (shift m e) ≤ 2 ^ 53 := by
  have hlt := div_shift_lt m e
  rw [roundShift_eq]
  split <;> omega

/-- After rounding nothing is left to shift out but a carry. -/
theorem shift_rounded {r : ℕ} (hr : r ≤ 2 ^ 53) {t : ℤ} (ht : -1074 ≤ t) :
    shift r t = if r = 2 ^ 53 then 1 else 0 := by
  have hlog : r = 2 ^ 53 ∨ r.log2 < 53 := by
    rcases hr.eq_or_lt with h | h
    · exact .inl h
    · right
      by_cases hzero : r = 0
      · rw [hzero]
        decide
      · exact (Nat.log2_lt hzero).2 h
  rw [shift_eq]
  rcases hlog with rfl | hlog
  · rw [if_pos rfl, Nat.log2_two_pow]
    omega
  · have hne : r ≠ 2 ^ 53 := by
      rintro rfl
      rw [Nat.log2_two_pow] at hlog
      omega
    rw [if_neg hne]
    omega

/-- Half steps of the target, and the number itself, are counted in one unit. -/
theorem half_mul_eq (c k : ℕ) (e : ℤ) :
    (c : ℚ) * 2 ^ (e + k - 1) = (c * 2 ^ k : ℕ) * 2 ^ (e - 1) := by
  rw [show e + k - 1 = k + (e - 1) by ring, zpow_add₀ two_ne_zero, zpow_natCast]
  push_cast
  ring

theorem mul_zpow_eq (m : ℕ) (e : ℤ) : (m : ℚ) * 2 ^ e = (2 * m : ℕ) * 2 ^ (e - 1) := by
  rw [zpow_sub_one₀ two_ne_zero]
  push_cast
  ring

theorem zpow_log2_le (hm : 0 < m) (e : ℤ) : (2 : ℚ) ^ (m.log2 + e) ≤ m * 2 ^ e := by
  rw [zpow_add₀ two_ne_zero, zpow_natCast]
  have h : 2 ^ m.log2 ≤ m := Nat.log2_self_le hm.ne'
  exact mul_le_mul_of_nonneg_right (by exact_mod_cast h) (by positivity)

theorem lt_zpow_log2 (m : ℕ) (e : ℤ) : (m : ℚ) * 2 ^ e < 2 ^ (m.log2 + 1 + e) := by
  rw [zpow_add₀ two_ne_zero]
  have h : m < 2 ^ (m.log2 + 1) := Nat.lt_log2_self
  exact mul_lt_mul_of_pos_right (by exact_mod_cast h) (by positivity)

/-- What is not above half the least positive number is rounded to zero. -/
theorem roundShift_eq_zero_iff (hm : 0 < m) (he : e ≤ max (m.log2 + e - 52) (-1074)) :
    Binary64.roundShift m (shift m e) = 0 ↔ (m : ℚ) * 2 ^ e ≤ 2 ^ (-1075 : ℤ) := by
  have ht := add_shift_eq he
  have hzero : Binary64.roundShift m (shift m e) = 0 ↔ ¬2 ^ shift m e < 2 * m := by
    have h := le_roundShift_iff Nat.one_pos m (shift m e)
    omega
  rw [hzero, not_lt]
  rcases le_or_gt ((m.log2 : ℤ) + e - 52) (-1074) with hsub | hnormal
  · have hhalf := half_mul_eq 1 (shift m e) e
    rw [ht, max_eq_right hsub, Nat.cast_one, one_mul, one_mul] at hhalf
    rw [mul_zpow_eq, show (-1075 : ℤ) = -1074 - 1 by norm_num, hhalf,
      mul_le_mul_iff_left₀ (by positivity)]
    exact_mod_cast Iff.rfl
  · have hshift : shift m e ≤ m.log2 := by omega
    have hle : 2 ^ shift m e ≤ m :=
      (Nat.pow_le_pow_right (by decide) hshift).trans (Nat.log2_self_le hm.ne')
    have hlt : (2 : ℚ) ^ (-1075 : ℤ) < m * 2 ^ e :=
      (zpow_lt_zpow_right₀ one_lt_two (by omega)).trans_le (zpow_log2_le hm e)
    constructor
    · intro
      omega
    · intro h
      exact absurd h (not_le.2 hlt)

/-- Halfway from the greatest number to the next power of two. -/
def limit : ℚ := (2 ^ 54 - 1) * 2 ^ (970 : ℤ)

theorem zpow_lt_limit {n : ℤ} (hn : n ≤ 1023) : (2 : ℚ) ^ n < limit := by
  have hpos : (0 : ℚ) < 2 ^ (970 : ℤ) := by positivity
  calc (2 : ℚ) ^ n ≤ 2 ^ (53 + 970 : ℤ) := zpow_le_zpow_right₀ one_le_two (by omega)
    _ = 2 ^ (53 : ℤ) * 2 ^ (970 : ℤ) := zpow_add₀ two_ne_zero _ _
    _ < limit := mul_lt_mul_of_pos_right (by norm_num) hpos

theorem limit_pos : 0 < limit :=
  (by positivity : (0 : ℚ) < 2 ^ (0 : ℤ)).trans (zpow_lt_limit (by norm_num))

theorem limit_le_zpow {n : ℤ} (hn : 1024 ≤ n) : limit ≤ 2 ^ n := by
  have hpos : (0 : ℚ) < 2 ^ (970 : ℤ) := by positivity
  calc limit ≤ 2 ^ (54 : ℤ) * 2 ^ (970 : ℤ) := mul_le_mul_of_nonneg_right (by norm_num) hpos.le
    _ = 2 ^ (54 + 970 : ℤ) := (zpow_add₀ two_ne_zero _ _).symm
    _ ≤ 2 ^ n := zpow_le_zpow_right₀ one_le_two (by omega)

/-- At the greatest exponent a carry leaves the range, and it happens from the limit on. -/
theorem carry_iff {k : ℕ} (ht : e + k = 971) :
    2 ^ 53 ≤ Binary64.roundShift m k ↔ limit ≤ m * 2 ^ e := by
  have hlimit : limit = (2 * 2 ^ 53 - 1 : ℕ) * 2 ^ (e + k - 1) := by
    rw [ht, limit]
    norm_num
  have hcarry := le_roundShift_iff_of_even (Nat.two_pow_pos 53) rfl m k
  rw [hcarry, hlimit, half_mul_eq, mul_zpow_eq m, mul_le_mul_iff_left₀ (by positivity), Nat.cast_le]

theorem too_great_iff (hm : 0 < m) (he : e ≤ max (m.log2 + e - 52) (-1074)) :
    972 ≤ e + shift m e + shift (Binary64.roundShift m (shift m e)) (e + shift m e) ↔
      limit ≤ m * 2 ^ e := by
  have ht := add_shift_eq he
  have hle := roundShift_le m e
  rw [shift_rounded hle (by omega)]
  -- Only at the greatest exponent does the carry decide.
  rcases lt_trichotomy (e + shift m e) 971 with hlow | htop | hhigh
  · have hlt : (m : ℚ) * 2 ^ e < limit :=
      (lt_zpow_log2 m e).trans (zpow_lt_limit (by omega))
    refine iff_of_false ?_ (not_le.2 hlt)
    split <;> omega
  · rw [← carry_iff htop]
    split <;> omega
  · have hge : limit ≤ m * 2 ^ e := (limit_le_zpow (by omega)).trans (zpow_log2_le hm e)
    refine iff_of_true ?_ hge
    split <;> omega

/-- A positive number is rounded to zero, to a positive number or to infinity, as its exact value
tells. -/
theorem view_roundWithAccuracy (s : Sign) (hm : 0 < m) (he : e ≤ max (m.log2 + e - 52) (-1074)) :
    view (ofView (roundWithAccuracy Format.binary64 s m e .exact)) = .zero s ∧
        (m : ℚ) * 2 ^ e ≤ 2 ^ (-1075 : ℤ) ∨
      (∃ m' e' h,
          view (ofView (roundWithAccuracy Format.binary64 s m e .exact)) = .finite s m' e' h) ∧
        2 ^ (-1075 : ℤ) < (m : ℚ) * 2 ^ e ∧ m * 2 ^ e < limit ∨
      view (ofView (roundWithAccuracy Format.binary64 s m e .exact)) = .infinity s ∧
        limit ≤ m * 2 ^ e := by
  have hrounded : rounded m e .exact = Binary64.roundShift m (shift m e) :=
    roundedMantissa_shiftRight m _
  have hle : -1074 ≤ e + shift m e := least_le_shift m e
  have hzero := roundShift_eq_zero_iff hm he
  have hgreat := too_great_iff hm he
  rw [← hrounded] at hzero hgreat
  obtain ⟨hnone, h⟩ | ⟨hpos, h⟩ := roundWithAccuracy_eq s m e .exact
  · left
    refine ⟨by rw [h, view_ofView_zero], hzero.1 (Nat.eq_zero_of_not_pos fun hr => ?_)⟩
    exact (div_shift_pos hr hle).ne' hnone
  · right
    have hne : rounded m e .exact ≠ 0 := by
      intro hr
      rw [hr, Nat.zero_div] at hpos
      exact Nat.lt_irrefl 0 hpos
    rw [h]
    obtain ⟨hview, hlt⟩ | ⟨hview, hge⟩ :=
      view_ofView_finite (s := s) hpos (div_shift_lt _ _) (least_le_shift _ _)
    · have hleast : (2 : ℚ) ^ (-1075 : ℤ) < m * 2 ^ e := not_le.1 fun h => hne (hzero.2 h)
      have hgreatest : (m : ℚ) * 2 ^ e < limit := not_le.1 fun h => Int.not_le.2 hlt (hgreat.2 h)
      exact .inl ⟨hview, hleast, hgreatest⟩
    · exact .inr ⟨hview, hgreat.1 hge⟩

end

/-- The result of rounding is a number, even where it does not fit. -/
theorem isNaN_roundWithAccuracy (s : Sign) (m : ℕ) (e : ℤ) (accuracy : Accuracy) :
    (view (ofView (roundWithAccuracy Format.binary64 s m e accuracy))).isNaN = false := by
  obtain ⟨-, h⟩ | ⟨hpos, h⟩ := roundWithAccuracy_eq s m e accuracy
  · rw [h, view_ofView_zero]
    rfl
  · rw [h]
    obtain ⟨⟨_, _, _, hview⟩, -⟩ | ⟨hview, -⟩ :=
        view_ofView_finite (s := s) hpos (div_shift_lt _ _) (least_le_shift _ _) <;>
      rw [hview] <;> rfl

end ComplexSeries.Double
