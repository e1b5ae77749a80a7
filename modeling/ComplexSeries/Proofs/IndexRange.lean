import ComplexSeries.IndexRange
import ComplexSeries.Proofs.Double.Exact

/-! The indices between two real bounds. A whole number of the range of an index denotes itself; the
limit above the range denotes the last index; no other bound denotes an index. -/
namespace ComplexSeries.IndexRange

open Double (toRat)

variable {a b : Float} {lower upper : Complex Float} {first last k : ℤ}

/-- The index that a bound denotes is the bound itself. The number after the last index still
denotes the last. -/
def Denotes (a : Float) (k : ℤ) : Prop :=
  toRat a = k ∧ -2 ^ 63 ≤ k ∧ k < 2 ^ 63 ∨ toRat a = 2 ^ 63 ∧ k = 2 ^ 63 - 1

theorem indexOf?_eq_some_iff {n : ℤ} :
    Complex.indexOf? n = some k ↔ -2 ^ 63 ≤ n ∧ n ≤ 2 ^ 63 ∧ k = min n (2 ^ 63 - 1) := by
  have hlimit : Complex.indexLimit = 2 ^ 63 := rfl
  simp only [Complex.indexOf?, hlimit, Bool.and_eq_true, decide_eq_true_iff,
    Option.ite_none_right_eq_some, Option.some.injEq, and_assoc, @eq_comm _ k]

theorem denotes_iff : Denotes a k ↔ ∃ n : ℤ, toRat a = n ∧ Complex.indexOf? n = some k := by
  simp only [indexOf?_eq_some_iff]
  constructor
  · rintro (⟨hk, hle, hlt⟩ | ⟨hk, rfl⟩)
    · exact ⟨k, hk, hle, hlt.le, by omega⟩
    · exact ⟨2 ^ 63, by rw [hk]; norm_num, by norm_num, by norm_num, by norm_num⟩
  · rintro ⟨n, hn, hle, hlt, rfl⟩
    rcases hlt.eq_or_lt with rfl | hlt
    · exact .inr ⟨by rw [hn]; norm_num, by norm_num⟩
    · rw [min_eq_left (by omega)]
      exact .inl ⟨hn, hle, hlt⟩

theorem real?_eq_some_iff {z : Complex Float} :
    z.real? = some a ↔ (z.im == 0) = true ∧ z.re.isFinite = true ∧ z.re = a := by
  simp only [Complex.real?, Option.ite_none_right_eq_some, Bool.and_eq_true, Option.some.injEq,
    and_assoc]
  rfl

theorem integer?_eq_some_iff {z : Complex Float} (h : z.real? = some a) :
    z.integer? = some k ↔ Denotes a k := by
  obtain ⟨him, hfinite, rfl⟩ := real?_eq_some_iff.1 h
  have hinteger : z.integer? = (Binary64.whole? z.re).bind Complex.indexOf? := if_pos him
  simp only [hinteger, Option.bind_eq_some_iff, Double.whole?_eq_some_iff, hfinite, true_and,
    denotes_iff]

/-- Between real bounds in order lie the indices from the one to the other that they denote, and if
one of them denotes none the range is invalid. -/
theorem between_of_le (hlower : lower.real? = some a) (hupper : upper.real? = some b) (hle : a ≤ b) :
    (∀ first last, between lower upper = .inclusive first last ↔ Denotes a first ∧ Denotes b last) ∧
      (between lower upper = .invalid ↔ ¬∃ first last, Denotes a first ∧ Denotes b last) := by
  have hempty : ¬b < a := Double.not_lt_of_le hle
  simp only [← integer?_eq_some_iff hlower, ← integer?_eq_some_iff hupper, between, hlower, hupper,
    hempty, if_false]
  cases lower.integer? <;> cases upper.integer? <;> simp

theorem between_of_le_limits :
    let a : Float := -9223372036854775808
    let b : Float := 9223372036854774784
    (Complex.ofReal a).real? = some a ∧ (Complex.ofReal b).real? = some b ∧ a ≤ b ∧
      between (.ofReal a) (.ofReal b) = .inclusive (-2 ^ 63) (2 ^ 63 - 1024) := by
  intro a b
  have ha : (Complex.ofReal a).real? = some a :=
    real?_eq_some_iff.2 ⟨by decide +kernel, by decide +kernel, rfl⟩
  have hb : (Complex.ofReal b).real? = some b :=
    real?_eq_some_iff.2 ⟨by decide +kernel, by decide +kernel, rfl⟩
  have hle : a ≤ b := by decide +kernel
  have hfirst : Denotes a (-2 ^ 63) :=
    (integer?_eq_some_iff ha).1 (by decide +kernel)
  have hlast : Denotes b (2 ^ 63 - 1024) :=
    (integer?_eq_some_iff hb).1 (by decide +kernel)
  exact ⟨ha, hb, hle, ((between_of_le ha hb hle).1 _ _).2 ⟨hfirst, hlast⟩⟩

/-- The bound `2 ^ 63` is no index, but makes a range of the last one. -/
theorem between_limit_ne_invalid :
    let a : Float := 9223372036854775808
    toRat a = (2 ^ 63 : ℤ) ∧
      between (.ofReal a) (.ofReal a) = .inclusive (2 ^ 63 - 1) (2 ^ 63 - 1) ∧
      between (.ofReal a) (.ofReal a) ≠ .invalid := by
  intro a
  have hwhole : Binary64.whole? a = some (2 ^ 63) := by decide +kernel
  have hbetween : between (.ofReal a) (.ofReal a) = .inclusive (2 ^ 63 - 1) (2 ^ 63 - 1) := by
    decide +kernel
  refine ⟨(Double.whole?_eq_some_iff.1 hwhole).2, hbetween, ?_⟩
  rw [hbetween]
  exact IndexRange.noConfusion

end ComplexSeries.IndexRange
