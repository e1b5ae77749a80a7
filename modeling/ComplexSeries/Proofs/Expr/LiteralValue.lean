import ComplexSeries.Proofs.Eval.Walk
import ComplexSeries.Proofs.Expr.Reread

/-! The value of a literal that was written and read back. The tree that is read computes with
magnitudes, zeros and the imaginary unit, and all that it does to them is exact: the sign of a part is
found by subtracting from zero, and a part that is added to another meets only a zero there. So the
value is the number that was written, but for the sign of a zero. -/
namespace ComplexSeries

open Scalar (zero one LawfulText LawfulOrder LawfulNeutral)

variable {R : Type} [Scalar R]

/-! ### Parts -/

namespace Scalar

variable [LawfulText R] {a : R}

theorem abs_zero : abs (zero : R) = zero := by
  rw [← LawfulText.ofDecimal_zero, LawfulText.abs_ofDecimal]

variable [LawfulNeutral R]

theorem zero_mul_zero : (zero : R) * zero = zero := by
  have h := LawfulNeutral.abs_mul_zero (LawfulText.isFinite_zero (R := R))
  rwa [abs_zero] at h

/-- A part is its magnitude, or what is left when that is subtracted from zero. -/
theorem signed_abs [LawfulOrder R] (ha : isFinite a = true) (hne : (a == zero) = false) :
    zero < a ∧ abs a = a ∨ ¬zero < a ∧ zero - abs a = a := by
  by_cases hpos : zero < a
  · exact .inl ⟨hpos, LawfulNeutral.abs_of_zero_lt hpos⟩
  · have hneg : a < zero := LawfulOrder.lt_of_not_lt ha LawfulText.isFinite_zero hne hpos
    exact .inr ⟨hpos, LawfulNeutral.zero_sub_abs ha hneg⟩

end Scalar

/-! ### Values -/

/-- The tree has the value `z` everywhere, and computing it does not touch the memory. -/
def Expr.Denotes (e : Expr R) (z : Complex R) : Prop :=
  ∀ settings env, e.value .standard settings env = pure z

theorem Expr.Denotes.binary {a b : Expr R} {z w : Complex R} (ha : a.Denotes z) (hb : b.Denotes w)
    (o : Operator) : (Expr.binary o a b).Denotes (Eval.applyOperator o z w) := by
  intro settings env
  rw [Expr.value, ha, hb]
  rfl

namespace Complex

open ComplexSeries.Expr (Denotes)

variable {a b : R} {z : Complex R} {e : Expr R}

theorem denotes_realTree (a : R) : (realTree a).Denotes ⟨Scalar.abs a, zero⟩ := fun _ _ => rfl

theorem denotes_unit : (Expr.const (imaginaryUnit : Complex R)).Denotes imaginaryUnit :=
  fun _ _ => rfl

variable [LawfulText R] [LawfulOrder R] [LawfulNeutral R]

omit [LawfulOrder R] in
theorem denotes_imaginaryTree (ha : Scalar.isFinite a = true) (hne : (a == zero) = false) :
    (imaginaryTree (.const imaginaryUnit) a).Denotes ⟨zero, Scalar.abs a⟩ := by
  have habs : Scalar.isFinite (Scalar.abs a) = true := by rw [LawfulText.isFinite_abs, ha]
  have hvalue : (⟨Scalar.abs a, zero⟩ : Complex R) * imaginaryUnit = ⟨zero, Scalar.abs a⟩ := by
    show mk (Scalar.abs a * zero - zero * one) (Scalar.abs a * one + zero * zero) = _
    rw [LawfulNeutral.abs_mul_zero ha, LawfulNeutral.mul_one LawfulText.isFinite_zero,
      LawfulNeutral.zero_sub_zero, LawfulNeutral.mul_one habs, Scalar.zero_mul_zero,
      LawfulNeutral.add_zero habs ((LawfulNeutral.abs_beq_zero a).trans hne)]
  exact hvalue ▸ (denotes_realTree a).binary denotes_unit .mul

/-- A leading part, real or imaginary, is subtracted from zero if it is below zero. -/
theorem denotes_leadTree {part : R → Complex R} (hpart : ∀ b, ofInt 0 - part b = part (zero - b))
    (ha : Scalar.isFinite a = true) (hne : (a == zero) = false)
    (h : e.Denotes (part (Scalar.abs a))) : (leadTree a e).Denotes (part a) := by
  unfold leadTree
  obtain ⟨hpos, habs⟩ | ⟨hpos, habs⟩ := Scalar.signed_abs ha hne
  · rw [if_pos hpos]
    rwa [habs] at h
  · have hvalue : ofInt 0 - part (Scalar.abs a) = part a := by rw [hpart, habs]
    rw [if_neg hpos, ← hvalue]
    exact Denotes.binary (fun _ _ => rfl) h .sub

theorem denotes_leadTree_real (ha : Scalar.isFinite a = true) (hne : (a == zero) = false) :
    (leadTree a (realTree a)).Denotes ⟨a, zero⟩ := by
  have hpart (b : R) : ofInt 0 - (⟨b, zero⟩ : Complex R) = ⟨zero - b, zero⟩ :=
    congrArg (mk (zero - b)) LawfulNeutral.zero_sub_zero
  exact denotes_leadTree hpart ha hne (denotes_realTree a)

theorem denotes_leadTree_imaginary (ha : Scalar.isFinite a = true) (hne : (a == zero) = false) :
    (leadTree a (imaginaryTree (.const imaginaryUnit) a)).Denotes ⟨zero, a⟩ := by
  have hpart (b : R) : ofInt 0 - (⟨zero, b⟩ : Complex R) = ⟨zero, zero - b⟩ :=
    congrArg (mk · (zero - b)) LawfulNeutral.zero_sub_zero
  exact denotes_leadTree hpart ha hne (denotes_imaginaryTree ha hne)

/-- The two parts of a number, neither of them zero, are linked by the sign of the second. -/
theorem apply_linkOf (ha : Scalar.isFinite a = true) (hne : (a == zero) = false)
    (hb : Scalar.isFinite b = true) (hne' : (b == zero) = false) :
    Eval.applyOperator (linkOf b) ⟨a, zero⟩ ⟨zero, Scalar.abs b⟩ = ⟨a, b⟩ := by
  obtain ⟨hpos, habs⟩ | ⟨hpos, habs⟩ := Scalar.signed_abs hb hne'
  · rw [linkOf, if_pos hpos]
    show mk (a + zero) (zero + Scalar.abs b) = _
    rw [habs, LawfulNeutral.add_zero ha hne, LawfulNeutral.zero_add hb hne']
  · rw [linkOf, if_neg hpos]
    show mk (a - zero) (zero - Scalar.abs b) = _
    rw [habs, LawfulNeutral.sub_zero ha]

/-- The number with zeros as they are written, without a sign. -/
def plain (z : Complex R) : Complex R :=
  ⟨if z.re == zero then zero else z.re, if z.im == zero then zero else z.im⟩

theorem denotes_tree (hz : z.isFinite = true) :
    (z.tree (.const imaginaryUnit)).Denotes z.plain := by
  obtain ⟨hre, him⟩ : Scalar.isFinite z.re = true ∧ Scalar.isFinite z.im = true := by
    simpa [isFinite] using hz
  unfold tree plain
  cases hr : z.re == zero <;> cases hi : z.im == zero
  · exact apply_linkOf hre hr him hi ▸
      (denotes_leadTree_real hre hr).binary (denotes_imaginaryTree him hi) (linkOf z.im)
  · exact denotes_leadTree_real hre hr
  · exact denotes_leadTree_imaginary him hi
  · exact fun _ _ => rfl

omit [LawfulText R] [LawfulOrder R] in
theorem plain_beq (hz : z.isFinite = true) : (z.plain == z) = true := by
  obtain ⟨hre, him⟩ : Scalar.isFinite z.re = true ∧ Scalar.isFinite z.im = true := by
    simpa [isFinite] using hz
  have hpart {a : R} (ha : Scalar.isFinite a = true) :
      ((if a == zero then zero else a) == a) = true := by
    split
    · next hzero => rwa [LawfulNeutral.beq_comm]
    · exact LawfulNeutral.beq_self ha
  exact Bool.and_eq_true_iff.2 ⟨hpart hre, hpart him⟩

omit [LawfulText R] [LawfulOrder R] [LawfulNeutral R] in
theorem occurrences_tree (z w : Complex R) : (z.tree (.const w)).occurrences = [] := by
  unfold tree leadTree
  split_ifs <;> rfl

end Complex

namespace Expr

variable [LawfulText R] [LawfulOrder R] [LawfulNeutral R]

/-- A literal that was written is read back, with four levels or more, as a closed tree whose value at
every point is the number. -/
theorem read_literal {z : Complex R} (hz : z.isFinite = true) (hlegible : z.Legible) :
    ∃ e : Expr R, e.isClosed = true ∧
      (∀ limit, 4 ≤ limit → read limit (String.ofList z.literal) = .ok e) ∧
      ∃ w, (w == z) = true ∧ ∀ settings : Settings R, 3 ≤ settings.maxDepth →
        ∀ x n, evaluate settings e.tokens x n = pure w := by
  have hderived : DerivedWithin 3 .atom [] (const z).lexemes (z.tree (.const .imaginaryUnit)) :=
    derivedWithin_literal hz hlegible (derivedWithin_letter [])
  have hscope : (const z).checkScope [] = .ok () := checkScope_const_iff.2 hz
  have hread : ∀ l ∈ (const z).lexemes, l.Readable :=
    readable_lexemes (isFinite_of_mem_literalsIn hscope) (by simp [names])
  have hheight : (z.tree (.const .imaginaryUnit)).height ≤ 3 := height_literalTree_le _ rfl z
  refine ⟨z.tree (.const .imaginaryUnit), ?_, fun limit hlimit => ?_, z.plain,
    Complex.plain_beq hz, fun settings hsettings x n => ?_⟩
  · rw [isClosed, freeVariables, Complex.occurrences_tree]
    rfl
  · exact read_of_derivedWithin (toList_text (const z)) hread hderived hlimit (by omega)
  · obtain ⟨d, -⟩ := hderived
    have hdepth : (z.tree (.const .imaginaryUnit)).depth ≤ settings.maxDepth := by
      rw [depth_eq_height]
      omega
    rw [evaluate, Eval.evaluateWith_eq d.checkScope hdepth, Complex.denotes_tree hz]
    rfl

/-- Both parts below zero, and a part that is a zero with a sign. -/
theorem read_literal_negative :
    let z : Complex Float := ⟨-2.5, -3⟩
    let w : Complex Float := ⟨-0.0, -2.5⟩
    (z.isFinite = true ∧ z.Legible ∧ String.ofList z.literal = "(0-2.5-3*i)" ∧
      ∃ e : Expr Float, e.isClosed = true ∧ (∀ limit, 4 ≤ limit → read limit "(0-2.5-3*i)" = .ok e) ∧
        ∃ v, (v == z) = true ∧ ∀ settings : Settings Float, 3 ≤ settings.maxDepth →
          ∀ x n, evaluate settings e.tokens x n = pure v) ∧
    w.isFinite = true ∧ w.Legible ∧ String.ofList w.literal = "(0-2.5*i)" ∧
      ∃ e : Expr Float, e.isClosed = true ∧ (∀ limit, 4 ≤ limit → read limit "(0-2.5*i)" = .ok e) ∧
        ∃ v, (v == w) = true ∧ ∀ settings : Settings Float, 3 ≤ settings.maxDepth →
          ∀ x n, evaluate settings e.tokens x n = pure v := by
  intro z w
  have hzero : Scalar.Legible (-0.0 : Float) := by rfl
  have hhalf : Scalar.Legible (-2.5 : Float) := by rfl
  have hthree : Scalar.Legible (-3 : Float) := by rfl
  have hz : z.isFinite = true := by decide +kernel
  have hw : w.isFinite = true := by decide +kernel
  have hztext : String.ofList z.literal = "(0-2.5-3*i)" := by decide +kernel
  have hwtext : String.ofList w.literal = "(0-2.5*i)" := by decide +kernel
  have hzread := read_literal hz ⟨hhalf, hthree⟩
  have hwread := read_literal hw ⟨hzero, hhalf⟩
  rw [hztext] at hzread
  rw [hwtext] at hwread
  exact ⟨⟨hz, ⟨hhalf, hthree⟩, hztext, hzread⟩, hw, ⟨hzero, hhalf⟩, hwtext, hwread⟩

end Expr

end ComplexSeries
