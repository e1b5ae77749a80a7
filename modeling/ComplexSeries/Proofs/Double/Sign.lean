import ComplexSeries.Proofs.Double.Rounded

/-! Which double precision numbers are written without a minus, and which are above zero. Rounding and
packing keep the sign, so magnitudes, the sums, products and quotients of unsigned numbers, and the
values of decimals are unsigned. -/
namespace ComplexSeries.Double

open Float.Model (Format UnpackedFloat)
open Float.Model.UnpackedFloat

variable {a : Float} {u v : UnpackedFloat}

/-- Not written with a minus. -/
def Unsigned : UnpackedFloat → Prop
  | .infinity s | .zero s | .finite s _ _ _ => s = .positive
  | .notANumber => True

/-- Above zero. -/
def Positive : UnpackedFloat → Prop
  | .infinity s | .finite s _ _ _ => s = .positive
  | _ => False

/-- Packing keeps the sign. -/
theorem exists_pack_eq (h : Unsigned u) : ∃ e m, pack Format.binary64 u = packed .positive e m := by
  cases u with
  | infinity s | zero s =>
    obtain rfl : s = .positive := h
    exact ⟨_, _, rfl⟩
  | notANumber => exact ⟨_, _, rfl⟩
  | finite s m e hm =>
    obtain rfl : s = .positive := h
    unfold pack
    dsimp only
    split
    · exact ⟨_, _, rfl⟩
    · split <;> exact ⟨_, _, rfl⟩

theorem unsigned_unpack_packed (e : BitVec 11) (m : BitVec 52) :
    Unsigned (unpack Format.binary64 (packed .positive e m)) := by
  simp only [unpack, packed, unpackExponent_packComponents, unpackMantissa_packComponents,
    unpackSign_packComponents, Sign.ofBitVec_toBitVec]
  split
  · split <;> trivial
  · split
    · split <;> trivial
    · trivial

theorem unsigned_ofView (h : Unsigned u) : Unsigned (view (ofView u)) := by
  obtain ⟨e, m, hpack⟩ := exists_pack_eq h
  change Unsigned (unpack Format.binary64 (pack Format.binary64 u))
  rw [hpack]
  exact unsigned_unpack_packed e m

theorem positive_ofView {m : Nat} {e : Int} (hm : 0 < m) (hlt : m < 2 ^ 53) (he : -1074 ≤ e) :
    Positive (view (ofView (.finite .positive m e hm))) := by
  obtain ⟨⟨_, _, _, hview⟩, -⟩ | ⟨hview, -⟩ := view_ofView_finite (s := .positive) hm hlt he <;>
    rw [hview] <;> rfl

theorem positive_round {m : Nat} (hm : 0 < m) {e : Int} (he : -1074 ≤ e) :
    Positive (view (ofView (round Format.binary64 .positive m e))) := by
  obtain ⟨m', e', h, heq, hlt, hle⟩ := round_eq_finite .positive hm he
  rw [heq]
  exact positive_ofView h hlt hle

theorem decreaseExponent_pos {m : Nat} (hm : 0 < m) (e target : Int) :
    0 < (decreaseExponent m e target).1 := by
  rw [decreaseExponent, Nat.shiftLeft_eq]
  exact Nat.mul_pos hm (Nat.two_pow_pos _)

theorem positive_normalize {m : Int} (hm : 0 < m) {e : Int} (he : -1074 ≤ e) (s : Sign) :
    Positive (view (ofView (normalize Format.binary64 m e s))) := by
  rw [UnpackedFloat.normalize, Int.compare_eq_gt.2 hm]
  exact positive_round (by omega) he

/-! ### Unsigned results -/

theorem unsigned_roundWithAccuracy (m : Nat) (e : Int) (accuracy : Accuracy) :
    Unsigned (roundWithAccuracy Format.binary64 .positive m e accuracy) := by
  unfold roundWithAccuracy
  dsimp only
  split <;> rfl

theorem unsigned_normalize {m : Int} (hm : 0 ≤ m) (e : Int) :
    Unsigned (normalize Format.binary64 m e .positive) := by
  unfold UnpackedFloat.normalize
  split
  · next h => exact absurd (Int.compare_eq_lt.1 h) (Int.not_lt.2 hm)
  · trivial
  · exact unsigned_roundWithAccuracy _ _ _

theorem unsigned_cases (h : Unsigned u) :
    u = .infinity .positive ∨ u = .notANumber ∨ u = .zero .positive ∨
      ∃ m e hm, u = .finite .positive m e hm := by
  rcases u with s | _ | s | ⟨s, m, e, hm⟩
  case notANumber => exact .inr (.inl rfl)
  all_goals obtain rfl : s = .positive := h
  case infinity => exact .inl rfl
  case zero => exact .inr (.inr (.inl rfl))
  case finite => exact .inr (.inr (.inr ⟨m, e, hm, rfl⟩))

theorem unsigned_add (hu : Unsigned u) (hv : Unsigned v) : Unsigned (add Format.binary64 u v) := by
  obtain rfl | rfl | rfl | ⟨m, e, hm, rfl⟩ := unsigned_cases hu <;>
    obtain rfl | rfl | rfl | ⟨m', e', hm', rfl⟩ := unsigned_cases hv
  case inr.inr.inr.inr.inr.inr =>
    exact unsigned_normalize (Int.add_nonneg (Int.natCast_nonneg _) (Int.natCast_nonneg _)) _
  all_goals trivial

theorem unsigned_mul (hu : Unsigned u) (hv : Unsigned v) : Unsigned (mul Format.binary64 u v) := by
  obtain rfl | rfl | rfl | ⟨m, e, hm, rfl⟩ := unsigned_cases hu <;>
    obtain rfl | rfl | rfl | ⟨m', e', hm', rfl⟩ := unsigned_cases hv
  case inr.inr.inr.inr.inr.inr => exact unsigned_roundWithAccuracy _ _ _
  all_goals trivial

theorem unsigned_div (hu : Unsigned u) (hv : Unsigned v) : Unsigned (div Format.binary64 u v) := by
  obtain rfl | rfl | rfl | ⟨m, e, hm, rfl⟩ := unsigned_cases hu <;>
    obtain rfl | rfl | rfl | ⟨m', e', hm', rfl⟩ := unsigned_cases hv
  case inr.inr.inr.inr.inr.inr => exact unsigned_roundWithAccuracy _ _ _
  all_goals trivial

/-! ### Magnitudes -/

theorem canonical_abs (h : Canonical u) : Canonical u.abs := by
  cases u <;> exact h

theorem view_abs (a : Float) : view a.abs = (view a).abs :=
  view_ofView (canonical_abs (canonical_view a))

theorem unsigned_abs (u : UnpackedFloat) : Unsigned u.abs := by
  cases u <;> trivial

theorem abs_eq_self (h : Unsigned (view a)) : a.abs = a := by
  have habs : (view a).abs = view a := by
    obtain h | h | h | ⟨m, e, hm, h⟩ := unsigned_cases h <;> rw [h] <;> rfl
  change ofView (view a).abs = a
  rw [habs, ofView_view]

theorem unsigned_view_abs (a : Float) : Unsigned (view a.abs) := by
  rw [view_abs]
  exact unsigned_abs _

theorem unsigned_add_abs (a b : Float) : Unsigned (view (a.abs + b.abs)) :=
  unsigned_ofView (unsigned_add (unsigned_view_abs a) (unsigned_view_abs b))

theorem isFinite_abs (a : Float) : a.abs.isFinite = a.isFinite := by
  change (view a.abs).isFinite = (view a).isFinite
  rw [view_abs]
  cases view a <;> rfl

theorem bits_of_fields {s : Sign} {e : BitVec 11} {m : BitVec 52}
    (h : a.toModel.toBits.toBitVec = packed s e m) :
    Binary64.bits a = s.toBitVec.toNat * 2 ^ 63 + e.toNat * 2 ^ 52 + m.toNat := by
  rw [← toNat_packed, ← h]
  rfl

theorem isNegative_of_fields {s : Sign} {e : BitVec 11} {m : BitVec 52}
    (h : a.toModel.toBits.toBitVec = packed s e m) :
    Binary64.isNegative a = (s == .negative) := by
  have he : e.toNat < 2 ^ 11 := e.isLt
  have hm : m.toNat < 2 ^ 52 := m.isLt
  rw [Binary64.isNegative, bits_of_fields h]
  cases s with
  | negative =>
    change decide ((1 * 2 ^ 63 + e.toNat * 2 ^ 52 + m.toNat) / 2 ^ 63 = 1) = true
    rw [decide_eq_true_iff]
    omega
  | positive =>
    change decide ((0 * 2 ^ 63 + e.toNat * 2 ^ 52 + m.toNat) / 2 ^ 63 = 1) = false
    rw [decide_eq_false_iff_not]
    omega

theorem isNegative_abs (a : Float) : Binary64.isNegative a.abs = false := by
  obtain ⟨e, m, hpack⟩ := exists_pack_eq (unsigned_abs (view a))
  exact isNegative_of_fields (a := a.abs) hpack

/-! ### Decimals -/

theorem unsigned_ofScientific (m : Nat) (e : Int) :
    Unsigned (UnpackedFloat.ofScientific Format.binary64 m e) := by
  unfold UnpackedFloat.ofScientific
  split
  · trivial
  split
  · trivial
  split
  · trivial
  split
  · exact unsigned_roundWithAccuracy _ _ _
  · exact unsigned_roundWithAccuracy _ _ _

theorem unsigned_powerOfTen (e : Nat) (h : e < Float.exactlyRepresentablePowersOfTen.size) :
    Unsigned (view Float.exactlyRepresentablePowersOfTen[e]) := by
  have hall : ∀ a ∈ Float.exactlyRepresentablePowersOfTen, Unsigned (view a) := by
    simp only [Float.exactlyRepresentablePowersOfTen, List.mem_toArray, List.forall_mem_cons,
      List.not_mem_nil, false_imp_iff, implies_true, and_true]
    and_intros <;> rfl
  exact hall _ (Array.getElem_mem h)

theorem unsigned_view_ofScientific (m : Nat) (s : Bool) (e : Nat) :
    Unsigned (view (Float.ofScientific m s e)) := by
  unfold Float.ofScientific
  split
  · have hm : Unsigned (view m.toUInt64.toFloat) :=
      unsigned_ofView (unsigned_normalize (Int.natCast_nonneg _) _)
    dsimp only
    split
    · exact unsigned_ofView (unsigned_div hm (unsigned_powerOfTen _ _))
    · exact unsigned_ofView (unsigned_mul hm (unsigned_powerOfTen _ _))
  · exact unsigned_ofView (unsigned_ofScientific m _)

theorem unsigned_ofDecimal (d : Decimal) : Unsigned (view (ofDecimal d)) := by
  unfold ofDecimal
  dsimp only
  split
  · rfl
  split
  · rfl
  split <;> exact unsigned_view_ofScientific _ _ _

end ComplexSeries.Double
