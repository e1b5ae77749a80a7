import Mathlib
import ComplexSeries.Scalar.Double

/-! Double precision numbers as they are packed into bits: a sign, an exponent and a mantissa. Every
number is the packing of what it unpacks to, and what fits into the fields unpacks to itself. -/
namespace ComplexSeries.Double

open Float.Model (Format UnpackedFloat)
open Float.Model.UnpackedFloat

/-! ### Fields -/

/-- The bits of a number of double precision. -/
abbrev Bits := BitVec Format.binary64.numBits

def packed (s : Sign) (e : BitVec 11) (m : BitVec 52) : Bits := packComponents Format.binary64 s e m

theorem exists_packed (b : Bits) : ∃ s e m, b = packed s e m :=
  ⟨_, _, _, (packComponents_unpackSign_unpackExponent_unpackMantissa b).symm⟩

theorem toNat_packed (s : Sign) (e : BitVec 11) (m : BitVec 52) :
    (packed s e m).toNat = s.toBitVec.toNat * 2 ^ 63 + e.toNat * 2 ^ 52 + m.toNat := by
  have hhead : (s.toBitVec ++ e).toNat = s.toBitVec.toNat * 2 ^ 11 + e.toNat := by
    rw [BitVec.toNat_append, ← Nat.shiftLeft_add_eq_or_of_lt e.isLt, Nat.shiftLeft_eq]
  change ((s.toBitVec ++ e) ++ m).toNat = _
  rw [BitVec.toNat_append, ← Nat.shiftLeft_add_eq_or_of_lt m.isLt, Nat.shiftLeft_eq, hhead]
  omega

theorem finite_congr {s : Sign} {m m' : Nat} {e e' : Int} {h : 0 < m} {h' : 0 < m'} (hm : m = m')
    (he : e = e') : finite s m e h = finite s m' e' h' := by
  subst hm he
  rfl

theorem exponentBias_eq : Format.binary64.exponentBias = 1023 := rfl

theorem toNat_pos {w : Nat} {b : BitVec w} (h : b ≠ 0#w) : 0 < b.toNat :=
  Nat.pos_of_ne_zero fun hb => h (BitVec.eq_of_toNat_eq (by simpa using hb))

section Unpacked

variable {s : Sign} {e : BitVec 11} {m : BitVec 52}

theorem unpack_packed_infinity : unpack Format.binary64 (packed s (-1#11) 0#52) = .infinity s := by
  cases s <;> rfl

theorem unpack_packed_notANumber (hm : m ≠ 0#52) :
    unpack Format.binary64 (packed s (-1#11) m) = .notANumber := by
  simp only [unpack, packed, unpackExponent_packComponents, unpackMantissa_packComponents]
  rw [if_pos trivial, if_neg hm]

theorem unpack_packed_zero : unpack Format.binary64 (packed s 0#11 0#52) = .zero s := by
  cases s <;> rfl

theorem unpack_packed_subnormal (hm : 0 < m.toNat) :
    unpack Format.binary64 (packed s 0#11 m) = .finite s m.toNat (-1074) hm := by
  have hm' : m ≠ 0#52 := by
    rintro rfl
    exact absurd hm (by decide)
  simp only [unpack, packed, unpackExponent_packComponents, unpackMantissa_packComponents,
    unpackSign_packComponents, Sign.ofBitVec_toBitVec]
  rw [if_neg (by decide), if_pos trivial, dif_neg hm']
  exact finite_congr rfl (by rw [exponentBias_eq]; decide)

theorem unpack_packed_normal (he : e ≠ -1#11) (he' : e ≠ 0#11) :
    unpack Format.binary64 (packed s e m) =
      .finite s (2 ^ 52 + m.toNat) (e.toNat - 1075) (by omega) := by
  simp only [unpack, packed, unpackExponent_packComponents, unpackMantissa_packComponents,
    unpackSign_packComponents, Sign.ofBitVec_toBitVec]
  rw [if_neg he, if_neg he']
  refine finite_congr ?_ (by rw [exponentBias_eq]; omega)
  rw [BitVec.toNat_append, ← Nat.shiftLeft_add_eq_or_of_lt m.isLt]
  rfl

end Unpacked

section Packed

variable {s : Sign} {m : Nat} {e : Int}

theorem biasedExponent_eq (e : Int) :
    e + Format.binary64.exponentBias + Format.binary64.mantissaBitsWithoutImplicit = e + 1075 := by
  rw [exponentBias_eq]
  change e + 1023 + 52 = _
  omega

theorem pack_subnormal (hm : 0 < m) (hlt : m < 2 ^ 52) (he : e ≤ 971) :
    pack Format.binary64 (.finite s m e hm) = packed s 0#11 (BitVec.ofNat 52 m) := by
  have hlog : m.log2 < 52 := (Nat.log2_lt hm.ne').2 hlt
  have hbits : m.log2 + 1 ≠ Format.binary64.mantissaBits := by
    change m.log2 + 1 ≠ 53
    omega
  unfold pack
  dsimp only
  rw [biasedExponent_eq, if_neg (by change ¬ 2048 ≤ _; omega), if_neg hbits]
  rfl

theorem pack_normal (hm : 2 ^ 52 ≤ m) (hlt : m < 2 ^ 53) (he : -1074 ≤ e) (hle : e ≤ 971) :
    pack Format.binary64 (.finite s m e (by omega)) =
      packed s (BitVec.ofNat 11 (e + 1075).toNat) (BitVec.ofNat 52 m) := by
  have hlog : m.log2 = 52 := (Nat.log2_eq_iff (by omega)).2 ⟨hm, hlt⟩
  unfold pack
  dsimp only
  rw [hlog, biasedExponent_eq, if_neg (by change ¬ 2048 ≤ _; omega)]
  exact if_pos rfl

theorem pack_overflow {hm : 0 < m} (he : 972 ≤ e) :
    pack Format.binary64 (.finite s m e hm) = packed s (-1#11) 0#52 := by
  unfold pack
  dsimp only
  rw [biasedExponent_eq, if_pos (by change 2048 ≤ _; omega)]
  rfl

end Packed

/-! ### Views -/

/-- A number as a sign, a mantissa and an exponent. -/
def view (a : Float) : UnpackedFloat := a.toModel.unpack

def ofView (u : UnpackedFloat) : Float := .ofModel (.pack u)

/-- What fits into the fields: the leading bit of a mantissa is set unless the exponent is the
least. -/
def Canonical : UnpackedFloat → Prop
  | .finite _ m e _ => m < 2 ^ 53 ∧ -1074 ≤ e ∧ e ≤ 971 ∧ (m < 2 ^ 52 → e = -1074)
  | _ => True

theorem unpack_pack {u : UnpackedFloat} (h : Canonical u) :
    unpack Format.binary64 (pack Format.binary64 u) = u := by
  cases u with
  | infinity s => exact unpack_packed_infinity
  | notANumber => rfl
  | zero s => exact unpack_packed_zero
  | finite s m e hm =>
    obtain ⟨hlt, he, hle, hleast⟩ := h
    rcases Nat.lt_or_ge m (2 ^ 52) with hsub | hnormal
    · obtain rfl := hleast hsub
      have hnat : (BitVec.ofNat 52 m).toNat = m := by
        rw [BitVec.toNat_ofNat, Nat.mod_eq_of_lt hsub]
      rw [pack_subnormal hm hsub (by omega), unpack_packed_subnormal (hnat.symm ▸ hm)]
      exact finite_congr hnat rfl
    · have hexp : (BitVec.ofNat 11 (e + 1075).toNat).toNat = (e + 1075).toNat := by
        rw [BitVec.toNat_ofNat, Nat.mod_eq_of_lt (by omega)]
      have hne (k : BitVec 11) (hk : k.toNat ≠ (e + 1075).toNat) :
          BitVec.ofNat 11 (e + 1075).toNat ≠ k := by
        rintro rfl
        exact hk hexp
      rw [pack_normal hnormal hlt he hle,
        unpack_packed_normal (hne _ (by change 2047 ≠ _; omega)) (hne _ (by change 0 ≠ _; omega))]
      refine finite_congr ?_ (by rw [hexp]; omega)
      rw [BitVec.toNat_ofNat]
      omega

/-- What is unpacked fits. -/
theorem canonical_unpack (b : Bits) : Canonical (unpack Format.binary64 b) := by
  obtain ⟨s, e, m, rfl⟩ := exists_packed b
  have hm : m.toNat < 2 ^ 52 := m.isLt
  by_cases hinf : e = -1#11
  · subst hinf
    by_cases hz : m = 0#52
    · rw [hz, unpack_packed_infinity]
      trivial
    · rw [unpack_packed_notANumber hz]
      trivial
  by_cases hzero : e = 0#11
  · subst hzero
    by_cases hz : m = 0#52
    · rw [hz, unpack_packed_zero]
      trivial
    · rw [unpack_packed_subnormal (toNat_pos hz)]
      exact ⟨by omega, by omega, by omega, fun _ => rfl⟩
  · have hlt : e.toNat < 2 ^ 11 - 1 := by
      have hle := e.isLt
      have hne : e.toNat ≠ 2 ^ 11 - 1 := fun h => hinf (BitVec.eq_of_toNat_eq h)
      omega
    have hpos : 0 < e.toNat := toNat_pos hzero
    rw [unpack_packed_normal hinf hzero]
    exact ⟨by omega, by omega, by omega, by omega⟩

theorem view_ofView {u : UnpackedFloat} (h : Canonical u) : view (ofView u) = u := unpack_pack h

theorem view_ofView_zero (s : Sign) : view (ofView (.zero s)) = .zero s :=
  view_ofView (u := .zero s) trivial

theorem view_ofView_infinity (s : Sign) : view (ofView (.infinity s)) = .infinity s :=
  view_ofView (u := .infinity s) trivial

theorem view_ofView_notANumber : view (ofView .notANumber) = .notANumber := rfl

/-- Numbers too great become infinite, others keep their bits. -/
theorem view_ofView_finite {s : Sign} {m : Nat} {e : Int} (hm : 0 < m) (hlt : m < 2 ^ 53)
    (he : -1074 ≤ e) :
    (∃ m' e' h, view (ofView (.finite s m e hm)) = .finite s m' e' h) ∧ e < 972 ∨
      view (ofView (.finite s m e hm)) = .infinity s ∧ 972 ≤ e := by
  rcases Int.lt_or_le e 972 with hle | hbig
  · left
    refine ⟨?_, hle⟩
    change ∃ m' e' h, unpack Format.binary64 (pack Format.binary64 _) = _
    rcases Nat.lt_or_ge m (2 ^ 52) with hsub | hnormal
    · have hpos : 0 < (BitVec.ofNat 52 m).toNat := by
        rw [BitVec.toNat_ofNat]
        omega
      rw [pack_subnormal hm hsub (by omega), unpack_packed_subnormal hpos]
      exact ⟨_, _, hpos, rfl⟩
    · have hfits : Canonical (.finite s m e hm) :=
        ⟨hlt, he, by omega, fun h => absurd h (Nat.not_lt.2 hnormal)⟩
      rw [unpack_pack hfits]
      exact ⟨_, _, hm, rfl⟩
  · right
    refine ⟨?_, hbig⟩
    change unpack Format.binary64 (pack Format.binary64 _) = _
    rw [pack_overflow hbig, unpack_packed_infinity]

theorem canonical_view (a : Float) : Canonical (view a) := canonical_unpack _

theorem ofView_view (a : Float) : ofView (view a) = a := by
  obtain ⟨⟨⟨b⟩, hb⟩⟩ := a
  unfold ofView Float.Model.pack
  congr 3
  exact pack_unpack_of_valid hb

end ComplexSeries.Double
