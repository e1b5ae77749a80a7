import ComplexSeries.Proofs.Double.Sign

/-! The order of double precision numbers. A missing value compares with nothing; any two other
numbers compare, and both ways alike. Numbers in canonical form compare first by their exponents, so
the greater of two is greater in value, and the difference to it is above zero. -/
namespace ComplexSeries.Double

open Float.Model (Format UnpackedFloat)
open Float.Model.UnpackedFloat

variable {a b : Float} {u v : UnpackedFloat}

/-! ### Comparing -/

theorem compare_swap (u v : UnpackedFloat) : v.compare u = (u.compare v).map Ordering.swap := by
  rcases u with ⟨_ | _⟩ | _ | ⟨_ | _⟩ | ⟨_ | _, m, e, hm⟩ <;>
    rcases v with ⟨_ | _⟩ | _ | ⟨_ | _⟩ | ⟨_ | _, m', e', hm'⟩
  case finite.negative.finite.negative | finite.positive.finite.positive =>
    simp only [UnpackedFloat.compare, Option.map_some, Ordering.swap_then, Int.compare_swap,
      Nat.compare_swap]
  all_goals rfl

theorem exists_compare (hu : u ≠ .notANumber) (hv : v ≠ .notANumber) :
    ∃ o, u.compare v = some o := by
  rcases u with ⟨_ | _⟩ | _ | ⟨_ | _⟩ | ⟨_ | _, m, e, hm⟩
  case notANumber => exact absurd rfl hu
  all_goals
    rcases v with ⟨_ | _⟩ | _ | ⟨_ | _⟩ | ⟨_ | _, m', e', hm'⟩
    case notANumber => exact absurd rfl hv
    all_goals exact ⟨_, rfl⟩

theorem lt_iff : a < b ↔ (view a).compare (view b) = some .lt := by
  change decide (a.toModel < b.toModel) = true ↔ _
  rw [decide_eq_true_iff]
  change ((view a).compare (view b) == some .lt) = true ↔ _
  rw [beq_iff_eq]

theorem beq_iff : (a == b) = true ↔ (view a).compare (view b) = some .eq := by
  change ((view a).compare (view b) == some .eq) = true ↔ _
  rw [beq_iff_eq]

theorem lt_or_beq_of_le (h : a ≤ b) : a < b ∨ (a == b) = true := by
  rw [lt_iff, beq_iff]
  have h : decide (a.toModel ≤ b.toModel) = true := h
  have hle : ((view a).compare (view b)).any (·.isLE) = true := of_decide_eq_true h
  obtain ⟨o, ho, hle⟩ := (Option.any_eq_true _ _).1 hle
  cases o with
  | lt => exact .inl ho
  | eq => exact .inr ho
  | gt => cases hle

theorem not_lt_of_le (h : a ≤ b) : ¬b < a := by
  rw [lt_iff, compare_swap]
  rcases lt_or_beq_of_le h with h | h
  · rw [lt_iff.1 h]
    decide
  · rw [beq_iff.1 h]
    decide

theorem beq_self_of_beq (h : (a == b) = true) : (a == a) = true ∧ (b == b) = true := by
  obtain ⟨ha, hb, -⟩ := Float.beq_iff_ne_nan_and_eq.1 h
  exact ⟨Float.beq_self_iff.2 ha, Float.beq_self_iff.2 hb⟩

theorem beq_self_of_isNaN (h : a.isNaN = false) : (a == a) = true := by
  refine Float.beq_self_iff.2 ?_
  rintro rfl
  have hnan : Float.nan.isNaN = true := by decide +kernel
  rw [hnan] at h
  cases h

theorem view_ne_notANumber (h : a.isFinite = true) : view a ≠ .notANumber := by
  intro hview
  have h : (view a).isFinite = true := h
  rw [hview] at h
  cases h

/-- Of two finite numbers that differ one is less. -/
theorem lt_of_not_lt (ha : a.isFinite = true) (hb : b.isFinite = true) (hne : (a == b) = false)
    (hle : ¬b < a) : a < b := by
  obtain ⟨o, ho⟩ := exists_compare (view_ne_notANumber ha) (view_ne_notANumber hb)
  cases o with
  | lt => exact lt_iff.2 ho
  | eq => exact absurd (beq_iff.2 ho) (by simp [hne])
  | gt =>
    refine absurd (lt_iff.2 ?_) hle
    rw [compare_swap, ho]
    rfl

/-! ### Zero -/

theorem view_zero : view 0 = .zero .positive := rfl

theorem beq_zero_iff : (a == 0) = true ↔ ∃ s, view a = .zero s := by
  rw [beq_iff, view_zero]
  rcases view a with ⟨_ | _⟩ | _ | ⟨_ | _⟩ | ⟨_ | _, m, e, hm⟩ <;> simp [UnpackedFloat.compare]

theorem zero_lt_iff : 0 < a ↔ Positive (view a) := by
  rw [lt_iff, view_zero]
  rcases view a with ⟨_ | _⟩ | _ | ⟨_ | _⟩ | ⟨_ | _, m, e, hm⟩ <;>
    simp [UnpackedFloat.compare, Positive]

theorem not_lt_zero (h : Unsigned (view a)) : ¬a < 0 := by
  rw [lt_iff, view_zero]
  revert h
  rcases view a with ⟨_ | _⟩ | _ | ⟨_ | _⟩ | ⟨_ | _, m, e, hm⟩ <;>
    simp [UnpackedFloat.compare, Unsigned]

theorem positive_of_compare (hu : Positive u) (h : u.compare v = some .lt) : Positive v := by
  rcases u with ⟨_ | _⟩ | _ | ⟨_ | _⟩ | ⟨_ | _, m, e, hm⟩ <;>
    rcases v with ⟨_ | _⟩ | _ | ⟨_ | _⟩ | ⟨_ | _, m', e', hm'⟩ <;>
      simp_all [UnpackedFloat.compare, Positive]

theorem zero_lt_of_lt (ha : 0 < a) (h : a < b) : 0 < b :=
  zero_lt_iff.2 (positive_of_compare (zero_lt_iff.1 ha) (lt_iff.1 h))

theorem abs_eq_zero_of_beq (h : (a == 0) = true) : a.abs = 0 := by
  obtain ⟨-, -, rfl | ⟨rfl, -⟩ | ⟨rfl, -⟩⟩ := Float.beq_iff_ne_nan_and_eq.1 h <;> decide +kernel

theorem beq_zero_of_zero_lt (h : 0 < a) : (a == 0) = false := by
  rw [Bool.eq_false_iff]
  intro ha
  rw [lt_iff, compare_swap, beq_iff.1 ha] at h
  cases h

/-- Either zero, with whichever sign, or above it. -/
theorem zero_lt_iff_of_zero_le (h : 0 ≤ a) : 0 < a ↔ (a == 0) = false := by
  refine ⟨beq_zero_of_zero_lt, fun hne => (lt_or_beq_of_le h).resolve_right fun hzero => ?_⟩
  have ha : (a == 0) = true := by
    rw [beq_iff, compare_swap, beq_iff.1 hzero]
    rfl
  rw [hne] at ha
  cases ha

theorem add_abs_not_lt_zero (a b : Float) : ¬a.abs + b.abs < 0 :=
  not_lt_zero (unsigned_add_abs a b)

theorem eq_zero_or_zero_lt (h : Unsigned (view a)) (ha : a.isFinite = true) : a = 0 ∨ 0 < a := by
  rw [zero_lt_iff]
  have ha : (view a).isFinite = true := ha
  obtain h | h | h | ⟨m, e, hm, h⟩ := unsigned_cases h <;> rw [h] at ha ⊢
  · cases ha
  · cases ha
  · left
    rw [← ofView_view a, h]
    rfl
  · exact .inr rfl

/-! ### Differences -/

/-- In canonical form the number with the greater exponent is the greater, so it stays the greater
when both are written with the lesser exponent. -/
theorem mantissa_lt_of_lt {m m' : Nat} {e e' : Int} (hm : m < 2 ^ 53)
    (hm' : m' < 2 ^ 52 → e' = -1074) (he : -1074 ≤ e) (h : e < e' ∨ e = e' ∧ m < m') :
    (decreaseExponent m e (min e e')).1 < (decreaseExponent m' e' (min e e')).1 := by
  simp only [decreaseExponent, Nat.shiftLeft_eq]
  rcases h with hlt | ⟨rfl, hlt⟩
  · have hshift : (e - min e e').toNat = 0 := by omega
    have hle : 2 ^ 1 ≤ 2 ^ (e' - min e e').toNat := Nat.pow_le_pow_right (by decide) (by omega)
    have hnormal : 2 ^ 52 ≤ m' := Nat.le_of_not_lt fun hsub => by have := hm' hsub; omega
    rw [hshift, Nat.pow_zero, Nat.mul_one]
    calc m < 2 ^ 52 * 2 ^ 1 := hm
      _ ≤ m' * 2 ^ (e' - min e e').toNat := Nat.mul_le_mul hnormal hle
  · have hshift : (e - min e e).toNat = 0 := by omega
    simpa [hshift] using hlt

theorem positive_sub (hu : Canonical u) (hv : Canonical v) (hfu : u.isFinite = true)
    (hfv : v.isFinite = true) (h : u.compare v = some .lt) :
    Positive (view (ofView (sub Format.binary64 v u))) := by
  rcases u with _ | _ | s | ⟨s, m, e, hm⟩
  case infinity | notANumber => cases hfu
  all_goals rcases v with _ | _ | s' | ⟨s', m', e', hm'⟩
  case zero.infinity | finite.infinity | zero.notANumber | finite.notANumber => cases hfv
  case zero.zero => cases h
  case zero.finite =>
    cases s' with
    | negative => cases h
    | positive =>
      change Positive (view (ofView (.finite .positive m' e' hm')))
      rw [view_ofView hv]
      rfl
  case finite.zero =>
    cases s with
    | positive => cases h
    | negative =>
      have hfits : Canonical (.finite .positive m e hm) := hu
      change Positive (view (ofView (.finite .positive m e hm)))
      rw [view_ofView hfits]
      rfl
  case finite.finite =>
    obtain ⟨hlt, hle, -, hleast⟩ := hu
    obtain ⟨hlt', hle', -, hleast'⟩ := hv
    refine positive_normalize ?_ (by omega) _
    change 0 < s'.apply ((decreaseExponent m' e' (min e' e)).1 : Int) -
      s.apply ((decreaseExponent m e (min e' e)).1 : Int)
    have hpos : 0 < (decreaseExponent m e (min e' e)).1 := decreaseExponent_pos hm e _
    cases s <;> cases s'
    case negative.positive =>
      simp only [Sign.apply]
      omega
    case positive.negative => cases h
    case positive.positive =>
      have hcompare : e < e' ∨ e = e' ∧ m < m' := by
        simpa [UnpackedFloat.compare, Ordering.then_eq_lt, Int.compare_eq_lt, Nat.compare_eq_lt]
          using h
      have hmantissa := mantissa_lt_of_lt hlt hleast' hle hcompare
      rw [min_comm] at hmantissa
      simp only [Sign.apply]
      omega
    case negative.negative =>
      have hcompare : e' < e ∨ e' = e ∧ m' < m := by
        simpa [UnpackedFloat.compare, Ordering.swap_then, Int.compare_swap, Nat.compare_swap,
          Ordering.then_eq_lt, Int.compare_eq_lt, Nat.compare_eq_lt] using h
      have hmantissa := mantissa_lt_of_lt hlt' hleast hle' hcompare
      simp only [Sign.apply]
      omega

theorem sub_pos (ha : a.isFinite = true) (hb : b.isFinite = true) (h : a < b) : 0 < b - a :=
  zero_lt_iff.2 (positive_sub (canonical_view a) (canonical_view b) ha hb (lt_iff.1 h))

theorem sub_view_self (h : u.isFinite = true) : sub Format.binary64 u u = .zero .positive := by
  rcases u with _ | _ | ⟨_ | _⟩ | ⟨s, m, e, hm⟩
  case infinity | notANumber => cases h
  case zero.negative | zero.positive => rfl
  case finite =>
    simp only [sub, Int.sub_self]
    rfl

theorem sub_self (h : a.isFinite = true) : a - a = 0 :=
  (congrArg ofView (sub_view_self h)).trans rfl

end ComplexSeries.Double
