import ComplexSeries.Complex.Basic

/-! Integrals as sums of samples at the left ends of equal pieces. A sample that is missing counts
as zero. -/
namespace ComplexSeries.Integral

variable {R : Type} [Scalar R] {m : Type → Type} [Monad m]

/-- Adds the samples of `count` pieces from the `k`th on, each times the width of a piece. -/
def addSamples (lower width : R) (sample : R → m (Complex R)) :
    (count : Nat) → (k : Nat) → (total : Complex R) → m (Complex R)
  | 0, _, total => pure total
  | count + 1, k, total => do
    let value ← sample (lower + Scalar.ofInt k * width)
    let total := if value.isMissing then total else total + value.scale width
    addSamples lower width sample count (k + 1) total

/-- The sum from `lower` to `upper`, in one piece at least. -/
def leftSum (lower upper : R) (pieces : Nat) (sample : R → m (Complex R)) : m (Complex R) :=
  let pieces := max pieces 1
  let width := (upper - lower) / Scalar.ofInt pieces
  addSamples lower width sample pieces 0 (Complex.ofInt 0)

/-- Exchanged bounds change the sign, equal bounds give zero. -/
def riemann (lower upper : R) (pieces : Nat) (sample : R → m (Complex R)) : m (Complex R) :=
  if lower == upper then pure (Complex.ofInt 0)
  else if upper < lower then do
    let value ← leftSum upper lower pieces sample
    return -value
  else leftSum lower upper pieces sample

end ComplexSeries.Integral
