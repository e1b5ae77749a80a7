import ComplexSeries.Complex.Basic

/-! Powers, logarithms, and the circular and hyperbolic functions with their inverses. Every
function is total: outside its domain it answers `undefined`. -/
namespace ComplexSeries.Complex

open Scalar (zero one two)

variable {R : Type} [Scalar R]

def polar (modulus angle : R) : Complex R :=
  ⟨modulus * Scalar.cos angle, modulus * Scalar.sin angle⟩

def arg (z : Complex R) : R := Scalar.atan2 z.im z.re

/-- The principal logarithm, its angle from the half-angle formula; the negative real axis has
angle `pi`. -/
def ln (z : Complex R) : Complex R :=
  let modulus := z.norm
  if modulus == zero then undefined
  else
    let angle :=
      if z.im == zero && decide (z.re < zero) then Scalar.pi
      else two * Scalar.atan (z.im / (z.re + modulus))
    ⟨Scalar.ln modulus, angle⟩

/-- The logarithm from the polar form, without an undefined point. -/
def polarLn (z : Complex R) : Complex R := ⟨Scalar.ln z.norm, z.arg⟩

def lg (z : Complex R) : Complex R := z.ln.unscale Scalar.lnTen

/-- `ln z / ln base`, undefined for the base one. -/
def log (z base : Complex R) : Complex R :=
  if base.re == one && base.im == zero then undefined else div z.ln base.ln

/-- The principal power, from the polar form of the base. -/
def pow (base exponent : Complex R) : Complex R :=
  if base.isZero then
    if exponent.isZero then ofReal one
    else if zero < exponent.re then ofReal zero
    else undefined
  else
    let l := base.ln
    polar (Scalar.exp (exponent.re * l.re - exponent.im * l.im))
      (exponent.im * l.re + exponent.re * l.im)

/-- The limits at infinite and missing real parts are taken before the formula. -/
def exp (z : Complex R) : Complex R :=
  if Scalar.isInfinite z.re then
    if z.re < zero then
      if Scalar.isFinite z.im then polar (Scalar.exp z.re) z.im else ofReal zero
    else if z.im == zero then z
    else if Scalar.isFinite z.im then polar (Scalar.exp z.re) z.im
    else ⟨z.re, if Scalar.isInfinite z.im then Scalar.missing else z.im⟩
  else if Scalar.isMissing z.re && z.im == zero then z
  else polar (Scalar.exp z.re) z.im

/-- The root in the right half plane from the half-modulus formula. -/
def sqrt (z : Complex R) : Complex R :=
  let modulus := z.norm
  let sign := if z.im < zero then -one else one
  ⟨Scalar.sqrt ((modulus + z.re) / two), sign * Scalar.sqrt ((modulus - z.re) / two)⟩

/-- The root from the polar form. On the axes it is exact, and the sign of a zero tells the side. -/
def polarSqrt (z : Complex R) : Complex R :=
  let signed (a : R) := if Scalar.isNegative z.im then -a else a
  if z.im == zero then
    if Scalar.isNegative z.re then ⟨zero, signed (Scalar.sqrt (-z.re))⟩
    else ⟨Scalar.sqrt z.re, z.im⟩
  else if z.re == zero then
    let side := Scalar.sqrt (Scalar.abs z.im / two)
    ⟨side, signed side⟩
  else polar (Scalar.sqrt z.norm) (z.arg / two)

def sin (z : Complex R) : Complex R :=
  ⟨Scalar.sin z.re * Scalar.cosh z.im, Scalar.cos z.re * Scalar.sinh z.im⟩

def cos (z : Complex R) : Complex R :=
  ⟨Scalar.cos z.re * Scalar.cosh z.im, -Scalar.sin z.re * Scalar.sinh z.im⟩

def tan (z : Complex R) : Complex R :=
  let a := z.re + z.re
  let b := z.im + z.im
  unscale ⟨Scalar.sin a, Scalar.sinh b⟩ (Scalar.cos a + Scalar.cosh b)

def cot (z : Complex R) : Complex R := div z.cos z.sin

def sinh (z : Complex R) : Complex R :=
  ⟨Scalar.sinh z.re * Scalar.cos z.im, Scalar.cosh z.re * Scalar.sin z.im⟩

def cosh (z : Complex R) : Complex R :=
  ⟨Scalar.cosh z.re * Scalar.cos z.im, Scalar.sinh z.re * Scalar.sin z.im⟩

def tanh (z : Complex R) : Complex R :=
  let a := z.re + z.re
  let b := z.im + z.im
  unscale ⟨Scalar.sinh a, Scalar.sin b⟩ (Scalar.cosh a + Scalar.cos b)

def coth (z : Complex R) : Complex R := div z.cosh z.sinh

/-- Plus or minus one; zero counts as positive. -/
def unitSign (a : R) : R := if zero ≤ a then one else -one

/-- Rounding must not leave the interval on which the arc cosine is real. -/
def clampUnit (a : R) : R := if a < -one then -one else if one < a then one else a

/-- A missing argument counts as one, too. -/
def atLeastOne (a : R) : R := if one < a then a else one

/-- The inverse sine from the real arc cosine and its hyperbolic counterpart. -/
def asin (z : Complex R) : Complex R :=
  let s := z.re * z.re + z.im * z.im
  let t := Scalar.sqrt ((s - one) * (s - one) + two * two * z.im * z.im)
  ⟨unitSign z.re / two * Scalar.acos (clampUnit (t - s)),
   unitSign z.im / two * Scalar.acosh (atLeastOne (t + s))⟩

def acos (z : Complex R) : Complex R := ofReal Scalar.halfPi - z.asin

/-- `(i / 2) (ln (1 - i z) - ln (1 + i z))`. -/
def atan (z : Complex R) : Complex R :=
  let turned : Complex R := ⟨-z.im, z.re⟩
  ⟨zero, one / two⟩ * (ln (ofReal one - turned) - ln (ofReal one + turned))

def acot (z : Complex R) : Complex R := ofReal Scalar.halfPi - z.atan

def asinh (z : Complex R) : Complex R := polarLn (z + polarSqrt (ofReal one + z * z))

def acosh (z : Complex R) : Complex R :=
  let half (w : Complex R) := polarSqrt (div w (ofReal two))
  ofReal two * polarLn (half (z + ofReal one) + half (z - ofReal one))

/-- Infinite at one and minus one. -/
def atanh (z : Complex R) : Complex R :=
  if z == ofReal one then ofReal Scalar.infinity
  else if z == -ofReal one then ofReal (-Scalar.infinity)
  else div (polarLn (ofReal one + z) - polarLn (ofReal one - z)) (ofReal two)

def acoth (z : Complex R) : Complex R := atanh (div (ofReal one) z)

/-- The number of modulus one in the same direction, undefined at the origin. -/
def sign (z : Complex R) : Complex R := div z (ofReal z.norm)

def apply : Function → Complex R → Complex R
  | .sin => sin
  | .cos => cos
  | .tan => tan
  | .cot => cot
  | .sinh => sinh
  | .cosh => cosh
  | .tanh => tanh
  | .coth => coth
  | .asin => asin
  | .acos => acos
  | .atan => atan
  | .acot => acot
  | .asinh => asinh
  | .acosh => acosh
  | .atanh => atanh
  | .acoth => acoth
  | .sqrt => sqrt
  | .exp => exp
  | .ln => ln
  | .lg => lg
  | .abs => fun z => ofReal z.norm
  | .re => fun z => ofReal z.re
  | .im => fun z => ofReal z.im
  | .conj => conj
  | .sign => sign
  | .floor => fun z => ⟨Scalar.floor z.re, Scalar.floor z.im⟩
  | .ceil => fun z => ⟨Scalar.ceil z.re, Scalar.ceil z.im⟩

end ComplexSeries.Complex
