import ComplexSeries.Keyword
import ComplexSeries.Scalar

/-! Complex numbers over the scalars, with the usual operations in the order of their textbook
formulas. Equality is that of the components, so a number with a missing component equals none. -/
namespace ComplexSeries

structure Complex (R : Type) where
  re : R
  im : R
deriving DecidableEq, Repr

namespace Complex

open Scalar (zero one two)

variable {R : Type} [Scalar R]

def ofReal (a : R) : Complex R := ⟨a, zero⟩

def ofInt (n : Int) : Complex R := ofReal (Scalar.ofInt n)

def ofConstant : Constant → Complex R
  | .pi => ofReal Scalar.pi
  | .e => ofReal Scalar.e

def imaginaryUnit : Complex R := ⟨zero, one⟩

/-- The answer where a function has no value. -/
def undefined : Complex R := ⟨Scalar.missing, Scalar.missing⟩

def isMissing (z : Complex R) : Bool := Scalar.isMissing z.re || Scalar.isMissing z.im

def isFinite (z : Complex R) : Bool := Scalar.isFinite z.re && Scalar.isFinite z.im

def isZero (z : Complex R) : Bool := z.re == zero && z.im == zero

instance : BEq (Complex R) := ⟨fun z w => z.re == w.re && z.im == w.im⟩

instance : Add (Complex R) := ⟨fun z w => ⟨z.re + w.re, z.im + w.im⟩⟩

instance : Sub (Complex R) := ⟨fun z w => ⟨z.re - w.re, z.im - w.im⟩⟩

instance : Neg (Complex R) := ⟨fun z => ⟨-z.re, -z.im⟩⟩

instance : Mul (Complex R) :=
  ⟨fun z w => ⟨z.re * w.re - z.im * w.im, z.re * w.im + z.im * w.re⟩⟩

/-- Each component times a scalar. -/
def scale (z : Complex R) (a : R) : Complex R := ⟨z.re * a, z.im * a⟩

/-- Each component divided by a scalar. -/
def unscale (z : Complex R) (a : R) : Complex R := ⟨z.re / a, z.im / a⟩

def conj (z : Complex R) : Complex R := ⟨z.re, -z.im⟩

def normSq (z : Complex R) : R := z.re * z.re + z.im * z.im

def norm (z : Complex R) : R := Scalar.hypot z.re z.im

/-- Undefined where the squared modulus of the divisor is zero. -/
def div (z w : Complex R) : Complex R :=
  let q := w.normSq
  if q == zero then undefined
  else ⟨(z.re * w.re + z.im * w.im) / q, (z.im * w.re - z.re * w.im) / q⟩

end Complex

end ComplexSeries
