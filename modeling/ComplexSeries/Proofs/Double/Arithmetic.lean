import ComplexSeries.Proofs.Double.Nearest

/-! Where arithmetic leaves the numbers. The exact product tells whether the product of finite numbers
is zero, finite or infinite. A sum is missing if infinities of either sign meet, a quotient if it is
one of infinities. -/
namespace ComplexSeries.Double

open Float.Model (Format UnpackedFloat)
open Float.Model.UnpackedFloat

variable {a b : Float} {u v : UnpackedFloat}

/-! ### Products -/

theorem view_of_isFinite (h : a.isFinite = true) :
    (∃ s, view a = .zero s) ∨
      ∃ s m e hm, view a = .finite s m e hm ∧ Canonical (.finite s m e hm) := by
  have h : (view a).isFinite = true := h
  have hfits := canonical_view a
  cases hu : view a with
  | infinity | notANumber =>
    rw [hu] at h
    cases h
  | zero s => exact .inl ⟨s, rfl⟩
  | finite s m e hm => exact .inr ⟨s, m, e, hm, rfl, hu ▸ hfits⟩

section Mantissas

variable {m m' : ℕ} {e e' : ℤ} {hm : 0 < m} {hm' : 0 < m'}

theorem ratOf_positive : ratOf (.finite .positive m e hm) = m * 2 ^ e := rfl

theorem ratOf_negative : ratOf (.finite .negative m e hm) = -(m * 2 ^ e) := by
  rw [ratOf, Sign.apply, Int.cast_neg, Int.cast_natCast, neg_mul]

theorem apply_mul (s s' : Sign) (n n' : ℤ) : (s * s').apply (n * n') = s.apply n * s'.apply n' := by
  cases s <;> cases s'
  case negative.negative => exact (neg_mul_neg n n').symm
  case negative.positive => exact (neg_mul n n').symm
  case positive.negative => exact (mul_neg n n').symm
  case positive.positive => rfl

theorem ratOf_mul (s s' : Sign) :
    ratOf (.finite s m e hm) * ratOf (.finite s' m' e' hm') =
      ratOf (.finite (s * s') (m * m') (e + e') (Nat.mul_pos hm hm')) := by
  simp only [ratOf]
  rw [zpow_add₀ two_ne_zero, Nat.cast_mul, apply_mul]
  push_cast
  ring

/-- A product of mantissas is not short, unless both exponents are the least. -/
theorem le_target_mul (hm : 0 < m) (hm' : 0 < m') (h : m < 2 ^ 52 → e = -1074)
    (h' : m' < 2 ^ 52 → e' = -1074) :
    e + e' ≤ max ((m * m').log2 + (e + e') - 52) (-1074) := by
  by_cases hbig : 2 ^ 52 ≤ m * m'
  · have hlog : 52 ≤ (m * m').log2 := (Nat.le_log2 (Nat.mul_pos hm hm').ne').2 hbig
    omega
  · have hlt : m < 2 ^ 52 := by nlinarith
    have hlt' : m' < 2 ^ 52 := by nlinarith
    have := h hlt
    have := h' hlt'
    omega

end Mantissas

/-- The exact product of finite numbers tells what their product is. -/
theorem view_mul (ha : a.isFinite = true) (hb : b.isFinite = true) :
    (∃ s, view (a * b) = .zero s) ∧ |toRat a * toRat b| ≤ 2 ^ (-1075 : ℤ) ∨
      (∃ s m e h, view (a * b) = .finite s m e h) ∧
        2 ^ (-1075 : ℤ) < |toRat a * toRat b| ∧ |toRat a * toRat b| < limit ∨
      view (a * b) = .infinity .positive ∧ limit ≤ toRat a * toRat b ∨
      view (a * b) = .infinity .negative ∧ toRat a * toRat b ≤ -limit := by
  have hmul : view (a * b) = view (ofView (mul Format.binary64 (view a) (view b))) := rfl
  have hleast : (0 : ℚ) ≤ 2 ^ (-1075 : ℤ) := by positivity
  rw [hmul, toRat, toRat]
  obtain ⟨s, hu⟩ | ⟨s, m, e, hm, hu, -, -, -, hfits⟩ := view_of_isFinite ha <;>
    obtain ⟨s', hv⟩ | ⟨s', m', e', hm', hv, -, -, -, hfits'⟩ := view_of_isFinite hb <;> rw [hu, hv]
  case inr.inr =>
    have hround : mul Format.binary64 (.finite s m e hm) (.finite s' m' e' hm') =
        roundWithAccuracy Format.binary64 (s * s') (m * m') (e + e') .exact := rfl
    rw [hround, ratOf_mul]
    have hpos : (0 : ℚ) < (m * m' : ℕ) * 2 ^ (e + e') := by positivity
    have habs : |ratOf (.finite (s * s') (m * m') (e + e') (Nat.mul_pos hm hm'))| =
        (m * m' : ℕ) * 2 ^ (e + e') := by
      cases s * s'
      · rw [ratOf_negative, abs_neg, abs_of_pos hpos]
      · rw [ratOf_positive, abs_of_pos hpos]
    rw [habs]
    obtain ⟨hzero, hle⟩ | ⟨⟨k, t, hk, hfinite⟩, hrange⟩ | ⟨hinf, hge⟩ :=
      view_roundWithAccuracy (s * s') (Nat.mul_pos hm hm') (le_target_mul hm hm' hfits hfits')
    · exact .inl ⟨⟨_, hzero⟩, hle⟩
    · exact .inr (.inl ⟨⟨_, _, _, _, hfinite⟩, hrange⟩)
    · rw [hinf]
      cases s * s'
      · exact .inr (.inr (.inr ⟨rfl, by rw [ratOf_negative]; exact neg_le_neg hge⟩))
      · exact .inr (.inr (.inl ⟨rfl, hge⟩))
  all_goals
    left
    refine ⟨⟨_, view_ofView_zero _⟩, ?_⟩
    simp [ratOf]

/-- Only from the limit on the product of finite numbers is infinite. -/
theorem view_mul_infinity (ha : a.isFinite = true) (hb : b.isFinite = true) :
    view (a * b) = .infinity .positive ∧ limit ≤ toRat a * toRat b ∨
      view (a * b) = .infinity .negative ∧ toRat a * toRat b ≤ -limit ∨
      ((view (a * b)).isInf = false ∧ (view (a * b)).isNaN = false) ∧ |toRat a * toRat b| < limit := by
  obtain ⟨⟨s, h⟩, hle⟩ | ⟨⟨s, m, e, hm, h⟩, -, hlt⟩ | h | h := view_mul ha hb
  · have hlt : |toRat a * toRat b| < limit := hle.trans_lt (zpow_lt_limit (by norm_num))
    exact .inr (.inr ⟨by rw [h]; exact ⟨rfl, rfl⟩, hlt⟩)
  · exact .inr (.inr ⟨by rw [h]; exact ⟨rfl, rfl⟩, hlt⟩)
  · exact .inl h
  · exact .inr (.inl h)

theorem view_mul_eq_positive_iff (ha : a.isFinite = true) (hb : b.isFinite = true) :
    view (a * b) = .infinity .positive ↔ limit ≤ toRat a * toRat b := by
  have hpos := limit_pos
  obtain ⟨h, hle⟩ | ⟨h, hle⟩ | ⟨⟨h, -⟩, hlt⟩ := view_mul_infinity ha hb
  · exact iff_of_true h hle
  · exact iff_of_false (by simp [h]) (by linarith)
  · refine iff_of_false (fun hinf => ?_) (not_le.2 ((le_abs_self _).trans_lt hlt))
    rw [hinf] at h
    cases h

theorem view_mul_eq_negative_iff (ha : a.isFinite = true) (hb : b.isFinite = true) :
    view (a * b) = .infinity .negative ↔ toRat a * toRat b ≤ -limit := by
  have hpos := limit_pos
  obtain ⟨h, hle⟩ | ⟨h, hle⟩ | ⟨⟨h, -⟩, hlt⟩ := view_mul_infinity ha hb
  · exact iff_of_false (by simp [h]) (by linarith)
  · exact iff_of_true h hle
  · refine iff_of_false (fun hinf => ?_) (not_le.2 (abs_lt.1 hlt).1)
    rw [hinf] at h
    cases h

theorem isInf_mul_iff (ha : a.isFinite = true) (hb : b.isFinite = true) :
    (a * b).isInf = true ↔ limit ≤ |toRat a * toRat b| := by
  change (view (a * b)).isInf = true ↔ _
  rw [le_abs']
  obtain ⟨h, hle⟩ | ⟨h, hle⟩ | ⟨⟨h, -⟩, hlt⟩ := view_mul_infinity ha hb <;> rw [h]
  · exact iff_of_true rfl (.inr hle)
  · exact iff_of_true rfl (.inl hle)
  · obtain ⟨hlow, hhigh⟩ := abs_lt.1 hlt
    exact iff_of_false Bool.false_ne_true (not_or.2 ⟨not_le.2 hlow, not_le.2 hhigh⟩)

theorem isNaN_mul (ha : a.isFinite = true) (hb : b.isFinite = true) : (view (a * b)).isNaN = false := by
  obtain ⟨h, -⟩ | ⟨h, -⟩ | ⟨⟨-, h⟩, -⟩ := view_mul_infinity ha hb <;> rw [h] <;> rfl

theorem mul_zero_view (ha : a.isFinite = true) : ∃ s, view (a * 0) = .zero s := by
  have hmul : view (a * 0) = view (ofView (mul Format.binary64 (view a) (.zero .positive))) := rfl
  rw [hmul]
  obtain ⟨s, h⟩ | ⟨s, m, e, hm, h, -⟩ := view_of_isFinite ha <;>
    exact ⟨_, by rw [h]; exact view_ofView_zero _⟩

/-! ### Sums -/

theorem isNaN_normalize (m : ℤ) (e : ℤ) (s : Sign) :
    (view (ofView (normalize Format.binary64 m e s))).isNaN = false := by
  unfold UnpackedFloat.normalize
  split
  · exact isNaN_roundWithAccuracy _ _ _ _
  · rw [view_ofView_zero]
    rfl
  · exact isNaN_roundWithAccuracy _ _ _ _

theorem sub_eq_add (u v : UnpackedFloat) :
    sub Format.binary64 u v = add Format.binary64 u v.neg := by
  rcases u with s | _ | s | ⟨s, m, e, hm⟩ <;> rcases v with s' | _ | s' | ⟨s', m', e', hm'⟩
  case finite.finite =>
    cases s'
    · exact congrArg (normalize _ · _ _) (Int.sub_neg _ _)
    · exact congrArg (normalize _ · _ _) Int.sub_eq_add_neg
  all_goals rfl

theorem view_sub (a b : Float) :
    view (a - b) = view (ofView (add Format.binary64 (view a) (view b).neg)) :=
  congrArg (fun u => view (ofView u)) (sub_eq_add (view a) (view b))

/-- A sum of numbers is missing if infinities of either sign meet. -/
theorem isNaN_view_add_iff (hcu : Canonical u) (hcv : Canonical v) (hu : u.isNaN = false)
    (hv : v.isNaN = false) :
    (view (ofView (add Format.binary64 u v))).isNaN = true ↔
      u = .infinity .positive ∧ v = .infinity .negative ∨
        u = .infinity .negative ∧ v = .infinity .positive := by
  rcases u with s | _ | s | ⟨s, m, e, hm⟩
  case notANumber => cases hu
  all_goals rcases v with s' | _ | s' | ⟨s', m', e', hm'⟩
  case infinity.notANumber | zero.notANumber | finite.notANumber => cases hv
  case finite.finite =>
    exact iff_of_false (Bool.eq_false_iff.1 (isNaN_normalize _ _ _)) (by simp)
  case zero.finite =>
    exact iff_of_false (by simp [UnpackedFloat.add, view_ofView hcv, UnpackedFloat.isNaN]) (by simp)
  case finite.zero =>
    exact iff_of_false (by simp [UnpackedFloat.add, view_ofView hcu, UnpackedFloat.isNaN]) (by simp)
  all_goals
    cases s <;> cases s' <;>
      simp [UnpackedFloat.add, view_ofView_zero, view_ofView_infinity, view_ofView_notANumber,
        UnpackedFloat.isNaN]

theorem isNaN_add_iff (ha : (view a).isNaN = false) (hb : (view b).isNaN = false) :
    (a + b).isNaN = true ↔ view a = .infinity .positive ∧ view b = .infinity .negative ∨
      view a = .infinity .negative ∧ view b = .infinity .positive :=
  isNaN_view_add_iff (canonical_view a) (canonical_view b) ha hb

theorem canonical_neg (h : Canonical u) : Canonical u.neg := by
  cases u <;> exact h

theorem isNaN_neg (u : UnpackedFloat) : u.neg.isNaN = u.isNaN := by
  cases u <;> rfl

theorem view_neg_neg (u : UnpackedFloat) : u.neg.neg = u := by
  rcases u with ⟨_ | _⟩ | _ | ⟨_ | _⟩ | ⟨_ | _, m, e, hm⟩ <;> rfl

theorem neg_eq_infinity_iff {s : Sign} : u.neg = .infinity s ↔ u = .infinity (-s) := by
  constructor
  · intro h
    rw [← view_neg_neg u, h]
    rfl
  · rintro rfl
    cases s <;> rfl

theorem isNaN_sub_iff (ha : (view a).isNaN = false) (hb : (view b).isNaN = false) :
    (a - b).isNaN = true ↔ view a = .infinity .positive ∧ view b = .infinity .positive ∨
      view a = .infinity .negative ∧ view b = .infinity .negative := by
  change (view (a - b)).isNaN = true ↔ _
  rw [view_sub, isNaN_view_add_iff (canonical_view a) (canonical_neg (canonical_view b)) ha
    ((isNaN_neg _).trans hb), neg_eq_infinity_iff, neg_eq_infinity_iff]
  rfl

theorem isInf_view_add_zero (hu : Canonical u) (s' : Sign) :
    (view (ofView (add Format.binary64 u (.zero s')))).isInf = u.isInf := by
  rcases u with s | _ | s | ⟨s, m, e, hm⟩
  case zero =>
    cases s <;> cases s' <;> exact (congrArg UnpackedFloat.isInf (view_ofView_zero _)).trans rfl
  all_goals exact congrArg UnpackedFloat.isInf (view_ofView hu)

/-- Adding or subtracting a zero keeps what is infinite. -/
theorem isInf_add_zero (hb : ∃ s, view b = .zero s) : (a + b).isInf = a.isInf := by
  obtain ⟨s, h⟩ := hb
  change (view (ofView (add Format.binary64 (view a) (view b)))).isInf = (view a).isInf
  rw [h, isInf_view_add_zero (canonical_view a)]

theorem isInf_sub_zero (hb : ∃ s, view b = .zero s) : (a - b).isInf = a.isInf := by
  obtain ⟨s, h⟩ := hb
  change (view (a - b)).isInf = (view a).isInf
  rw [view_sub, h]
  exact isInf_view_add_zero (canonical_view a) (-s)

/-! ### Squares -/

theorem unsigned_mul_self (u : UnpackedFloat) : Unsigned (mul Format.binary64 u u) := by
  rcases u with s | _ | s | ⟨s, m, e, hm⟩
  case notANumber => trivial
  all_goals
    cases s
    all_goals first | rfl | exact unsigned_roundWithAccuracy _ _ _

theorem unsigned_view_mul_self (a : Float) : Unsigned (view (a * a)) :=
  unsigned_ofView (unsigned_mul_self (view a))

/-- Two unsigned numbers have a sum above zero unless both are zero. -/
theorem positive_add (hu : Unsigned u) (hv : Unsigned v) (hnu : u.isNaN = false) (hnv : v.isNaN = false)
    (hcu : Canonical u) (hcv : Canonical v) (hne : u ≠ .zero .positive ∨ v ≠ .zero .positive) :
    Positive (view (ofView (add Format.binary64 u v))) := by
  have hinf : Positive (view (ofView (.infinity .positive))) := by
    rw [view_ofView_infinity]
    rfl
  obtain rfl | rfl | rfl | ⟨m, e, hm, rfl⟩ := unsigned_cases hu
  case inr.inl => cases hnu
  all_goals obtain rfl | rfl | rfl | ⟨m', e', hm', rfl⟩ := unsigned_cases hv
  case inr.inr.inr.inr.inr.inr =>
    have hpos : 0 < (decreaseExponent m e (min e e')).1 := decreaseExponent_pos hm e _
    obtain ⟨-, he, -⟩ := hcu
    obtain ⟨-, he', -⟩ := hcv
    refine positive_normalize ?_ (by omega) _
    exact Int.add_pos_of_pos_of_nonneg (Int.natCast_pos.2 hpos) (Int.natCast_nonneg _)
  case inl.inr.inl | inr.inr.inl.inr.inl | inr.inr.inr.inr.inl => cases hnv
  case inr.inr.inl.inr.inr.inl => simp at hne
  case inr.inr.inl.inr.inr.inr =>
    change Positive (view (ofView (.finite .positive m' e' hm')))
    rw [view_ofView hcv]
    rfl
  case inr.inr.inr.inr.inr.inl =>
    change Positive (view (ofView (.finite .positive m e hm)))
    rw [view_ofView hcu]
    rfl
  all_goals exact hinf

/-! ### Quotients -/

/-- A quotient by a number other than zero is missing if the dividend is, or if both are infinite. -/
theorem isNaN_div_iff (hb : b.isNaN = false) (hne : (b == 0) = false) :
    (a / b).isNaN = true ↔ a.isNaN = true ∨ a.isInf = true ∧ b.isInf = true := by
  rw [Bool.eq_false_iff, Ne, beq_zero_iff] at hne
  change (view b).isNaN = false at hb
  change (view (ofView (div Format.binary64 (view a) (view b)))).isNaN = true ↔
    (view a).isNaN = true ∨ (view a).isInf = true ∧ (view b).isInf = true
  generalize view a = u at *
  generalize view b = v at *
  rcases v with s' | _ | s' | ⟨s', m', e', hm'⟩
  case notANumber => cases hb
  case zero => exact absurd ⟨s', rfl⟩ hne
  all_goals rcases u with s | _ | s | ⟨s, m, e, hm⟩
  case finite.finite =>
    have hround := isNaN_roundWithAccuracy (s / s') (divCore Format.binary64 m e m' e').1
      (divCore Format.binary64 m e m' e').2.1 (divCore Format.binary64 m e m' e').2.2
    exact iff_of_false (Bool.eq_false_iff.1 hround) (by rintro (h | ⟨h, -⟩) <;> cases h)
  all_goals
    simp [UnpackedFloat.div, UnpackedFloat.isNaN, UnpackedFloat.isInf, view_ofView_zero,
      view_ofView_infinity, view_ofView_notANumber]

end ComplexSeries.Double
