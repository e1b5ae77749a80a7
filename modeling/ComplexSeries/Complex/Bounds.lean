import ComplexSeries.Complex.Basic

/-! Complex numbers as bounds: of an integral if they are real and finite, of a sum or product if
they are whole numbers in the range of an index. -/
namespace ComplexSeries.Complex

open Scalar (zero)

variable {R : Type} [Scalar R]

/-- The real part, if it is finite and all there is. -/
def real? (z : Complex R) : Option R :=
  if z.im == zero && Scalar.isFinite z.re then some z.re else none

-- The core library's powers, also where a monoid has powers of its own.
local instance (priority := 2000) corePow : Pow Int Nat := instPowNat

/-- Indices range from `-2 ^ 63` to `2 ^ 63 - 1`. -/
def indexLimit : Int := 2 ^ (63 : Nat)

/-- The index a whole number stands for. The limit itself still counts, for the greatest index. -/
def indexOf? (k : Int) : Option Int :=
  if -indexLimit ≤ k && k ≤ indexLimit then some (min k (indexLimit - 1)) else none

def integer? (z : Complex R) : Option Int :=
  if z.im == zero then (Scalar.whole? z.re).bind indexOf? else none

end ComplexSeries.Complex
