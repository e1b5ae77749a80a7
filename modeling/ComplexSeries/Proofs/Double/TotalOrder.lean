import ComplexSeries.Proofs.Double.Order

/-! The total order of double precision numbers by their bits: negative numbers first, a missing value
last. Among numbers without a minus it is the order by value, where every number comes before a missing
value. -/
namespace ComplexSeries.Double

open Float.Model (Format UnpackedFloat)
open Float.Model.UnpackedFloat

variable {a b : Float} {u v : UnpackedFloat}

/-- The bits as a signed number, so that numbers with a minus come in the opposite order. -/
def totalRank (a : Float) : ℤ :=
  if Binary64.isNegative a then -1 - (Binary64.bits a % 2 ^ 63 : ℕ) else Binary64.bits a

/-- The bits of an unsigned number: the mantissa and the exponent count in steps of one. -/
def position : UnpackedFloat → ℕ
  | .infinity _ => 2047 * 2 ^ 52
  | .notANumber => 2047 * 2 ^ 52 + 2 ^ 51
  | .zero _ => 0
  | .finite _ m e _ => m + (e + 1074).toNat * 2 ^ 52

theorem toNat_pack (h : Unsigned u) (hu : Canonical u) :
    (pack Format.binary64 u).toNat = position u := by
  obtain rfl | rfl | rfl | ⟨m, e, hm, rfl⟩ := unsigned_cases h
  · rfl
  · rfl
  · rfl
  obtain ⟨hlt, he, hle, hleast⟩ := hu
  have hsign : (Sign.toBitVec .positive).toNat = 0 := rfl
  rcases Nat.lt_or_ge m (2 ^ 52) with hsub | hnormal
  · obtain rfl := hleast hsub
    rw [pack_subnormal hm hsub (by omega), toNat_packed, hsign, position]
    simp only [BitVec.toNat_ofNat]
    omega
  · rw [pack_normal hnormal hlt he hle, toNat_packed, hsign, BitVec.toNat_ofNat, BitVec.toNat_ofNat,
      position]
    omega

theorem bits_eq_position (h : Unsigned (view a)) : Binary64.bits a = position (view a) := by
  rw [← toNat_pack h (canonical_view a)]
  conv_lhs => rw [← ofView_view a]
  rfl

theorem totalRank_eq_position (h : Unsigned (view a)) : totalRank a = position (view a) := by
  have hnegative : Binary64.isNegative a = false := by
    rw [← abs_eq_self h]
    exact isNegative_abs a
  rw [totalRank, hnegative, bits_eq_position h]
  rfl

/-- Numbers in canonical form count up through the exponents, and through the mantissas for each. -/
theorem position_lt_iff (hu : Unsigned u) (hv : Unsigned v) (hcu : Canonical u) (hcv : Canonical v) :
    position u < position v ↔
      u.compare v = some .lt ∨ v.isNaN = true ∧ u.isNaN = false := by
  obtain rfl | rfl | rfl | ⟨m, e, hm, rfl⟩ := unsigned_cases hu <;>
    obtain rfl | rfl | rfl | ⟨m', e', hm', rfl⟩ := unsigned_cases hv
  case inr.inr.inr.inr.inr.inr =>
    obtain ⟨hlt, he, hle, hleast⟩ := hcu
    obtain ⟨hlt', he', hle', hleast'⟩ := hcv
    have hcompare : (finite .positive m e hm).compare (finite .positive m' e' hm') = some .lt ↔
        e < e' ∨ e = e' ∧ m < m' := by
      simp [UnpackedFloat.compare, Ordering.then_eq_lt, Int.compare_eq_lt, Nat.compare_eq_lt]
    rw [hcompare, or_iff_left (fun h => Bool.noConfusion h.1), position, position]
    omega
  all_goals simp [position, UnpackedFloat.compare, UnpackedFloat.isNaN]
  -- What is left compares a finite number with one that is not, or with zero.
  all_goals
    obtain ⟨hlt, -, hle, -⟩ := ‹Canonical (finite _ _ _ _)›
    omega

theorem nearer_iff (ha : Unsigned (view a)) (hb : Unsigned (view b)) :
    Scalar.nearer a b = true ↔ totalRank a < totalRank b := by
  have h := position_lt_iff ha hb (canonical_view a) (canonical_view b)
  rw [totalRank_eq_position ha, totalRank_eq_position hb, Nat.cast_lt, h, ← lt_iff, Scalar.nearer,
    Bool.or_eq_true, decide_eq_true_iff, Bool.and_eq_true, Bool.not_eq_true']
  rfl

end ComplexSeries.Double
