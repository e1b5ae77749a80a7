import ComplexSeries.Proofs.Double.Arithmetic

/-! Zero and one in sums and products. What fits into the fields is rounded to itself, so a number times
one is that number. A sum with zero is not rounded at all; it is the number, unless that is a zero
whose sign gives way. -/
namespace ComplexSeries.Double

open Float.Model (Format UnpackedFloat)
open Float.Model.UnpackedFloat

variable {a b : Float} {u : UnpackedFloat}

/-! ### Products -/

theorem view_one : view 1 = .finite .positive (2 ^ 52) (-52) (by decide) := rfl

section Mantissas

variable {s : Sign} {m : ℕ} {e : ℤ}

theorem log2_mul_two_pow (hm : 0 < m) (k : ℕ) : (m * 2 ^ k).log2 = m.log2 + k := by
  have hpos : 0 < 2 ^ k := Nat.two_pow_pos k
  refine (Nat.log2_eq_iff (Nat.mul_pos hm hpos).ne').2 ⟨?_, ?_⟩
  · rw [Nat.pow_add]
    exact Nat.mul_le_mul_right _ (Nat.log2_self_le hm.ne')
  · rw [Nat.add_right_comm, Nat.pow_add]
    exact Nat.mul_lt_mul_of_pos_right Nat.lt_log2_self hpos

/-- Zeros behind a mantissa that fits are all that is shifted out. -/
theorem shift_mul_two_pow {hm : 0 < m} (h : Canonical (.finite s m e hm)) (k : ℕ) :
    shift (m * 2 ^ k) (e - k) = k := by
  obtain ⟨hlt, he, -, hleast⟩ := h
  rw [shift_eq, log2_mul_two_pow hm]
  rcases Nat.lt_or_ge m (2 ^ 52) with hsub | hnormal
  · have hlog : m.log2 < 52 := (Nat.log2_lt hm.ne').2 hsub
    obtain rfl := hleast hsub
    omega
  · have hlog : m.log2 = 52 := (Nat.log2_eq_iff hm.ne').2 ⟨hnormal, hlt⟩
    omega

theorem roundShift_mul_two_pow (m k : ℕ) : Binary64.roundShift (m * 2 ^ k) k = m := by
  have hpos : 0 < 2 ^ k := Nat.two_pow_pos k
  rw [roundShift_eq, Nat.mul_mod_left, Nat.mul_div_cancel m hpos]
  exact if_neg (by omega)

theorem roundWithAccuracy_mul_two_pow {hm : 0 < m} (h : Canonical (.finite s m e hm)) (k : ℕ) :
    roundWithAccuracy Format.binary64 s (m * 2 ^ k) (e - k) .exact = .finite s m e hm := by
  have hshift : shift (m * 2 ^ k) (e - k) = k := shift_mul_two_pow h k
  have hrounded : rounded (m * 2 ^ k) (e - k) .exact = m := by
    have hround : rounded (m * 2 ^ k) (e - k) .exact =
        Binary64.roundShift (m * 2 ^ k) (shift (m * 2 ^ k) (e - k)) :=
      roundedMantissa_shiftRight _ _
    rw [hround, hshift, roundShift_mul_two_pow]
  have hfits : shift m e = 0 := by simpa using shift_mul_two_pow h 0
  obtain ⟨hzero, -⟩ | ⟨_, hround⟩ := roundWithAccuracy_eq s (m * 2 ^ k) (e - k) .exact
  · rw [hrounded, hshift, Int.sub_add_cancel, hfits, Nat.pow_zero, Nat.div_one] at hzero
    exact absurd hzero hm.ne'
  · rw [hround]
    refine finite_congr ?_ ?_
    · rw [hrounded, hshift, Int.sub_add_cancel, hfits, Nat.pow_zero, Nat.div_one]
    · rw [hrounded, hshift, Int.sub_add_cancel, hfits, Int.ofNat_zero, Int.add_zero]

end Mantissas

theorem mul_view_one (h : Canonical u) : mul Format.binary64 u (view 1) = u := by
  rw [view_one]
  rcases u with s | _ | s | ⟨s, m, e, hm⟩
  case notANumber => rfl
  case finite =>
    have hround := roundWithAccuracy_mul_two_pow h 52
    cases s <;> exact hround
  all_goals cases s <;> rfl

theorem mul_one (a : Float) : a * 1 = a :=
  (congrArg ofView (mul_view_one (canonical_view a))).trans (ofView_view a)

theorem abs_mul_zero (h : a.isFinite = true) : a.abs * 0 = 0 := by
  have hmul : a.abs * 0 = ofView (mul Format.binary64 (view a.abs) (.zero .positive)) := rfl
  rw [hmul, view_abs]
  obtain ⟨s, hu⟩ | ⟨s, m, e, hm, hu, -⟩ := view_of_isFinite h <;> rw [hu] <;> rfl

/-! ### Sums -/

theorem sub_view_zero (u : UnpackedFloat) : sub Format.binary64 u (.zero .positive) = u := by
  rcases u with s | _ | ⟨_ | _⟩ | ⟨s, m, e, hm⟩ <;> rfl

theorem add_view_zero (h : ∀ s, u ≠ .zero s) :
    add Format.binary64 u (.zero .positive) = u ∧ add Format.binary64 (.zero .positive) u = u := by
  rcases u with s | _ | s | ⟨s, m, e, hm⟩
  case zero => exact absurd rfl (h s)
  all_goals exact ⟨rfl, rfl⟩

theorem sub_view_abs (h : u.compare (.zero .positive) = some .lt) :
    sub Format.binary64 (.zero .positive) u.abs = u := by
  rcases u with ⟨_ | _⟩ | _ | ⟨_ | _⟩ | ⟨_ | _, m, e, hm⟩
  case infinity.negative | finite.negative => rfl
  all_goals cases h

theorem sub_zero (a : Float) : a - 0 = a :=
  (congrArg ofView (sub_view_zero (view a))).trans (ofView_view a)

section

variable (h : (a == 0) = false)
include h

theorem view_ne_zero (s : Sign) : view a ≠ .zero s := fun hview => by
  rw [beq_zero_iff.2 ⟨s, hview⟩] at h
  cases h

theorem add_zero : a + 0 = a :=
  (congrArg ofView (add_view_zero (view_ne_zero h)).1).trans (ofView_view a)

theorem zero_add : 0 + a = a :=
  (congrArg ofView (add_view_zero (view_ne_zero h)).2).trans (ofView_view a)

end

theorem zero_sub_abs (h : a < 0) : 0 - a.abs = a := by
  have hsub := sub_view_abs (lt_iff.1 h)
  rw [← view_abs] at hsub
  exact (congrArg ofView hsub).trans (ofView_view a)

/-! ### Zero and its neighbours -/

theorem abs_of_zero_lt (h : 0 < a) : a.abs = a := by
  apply abs_eq_self
  have hpos := zero_lt_iff.1 h
  rcases hu : view a with s | _ | s | ⟨s, m, e, hm⟩ <;> rw [hu] at hpos
  case infinity | finite => exact hpos
  all_goals cases hpos

theorem abs_beq_zero (a : Float) : (a.abs == 0) = (a == 0) := by
  rw [Bool.eq_iff_iff, beq_zero_iff, beq_zero_iff, view_abs]
  rcases view a with s | _ | s | ⟨s, m, e, hm⟩ <;> simp [UnpackedFloat.abs]

theorem beq_comm (a b : Float) : (a == b) = (b == a) := by
  rw [Bool.eq_iff_iff, beq_iff, beq_iff, compare_swap (view b)]
  rcases (view b).compare (view a) with _ | ⟨_ | _ | _⟩ <;> simp

end ComplexSeries.Double
