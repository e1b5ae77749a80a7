import ComplexSeries.Scalar
import ComplexSeries.Decimal.Shortest

/-! Double precision numbers as scalars. -/
namespace ComplexSeries.Double

/-- The nearest value of a decimal. Powers of ten far outside the range are not computed. -/
def ofDecimal (d : Decimal) : Float :=
  let top := d.exponent + (Decimal.digitsOf d.digits).length
  if d.digits = 0 || top < -400 then 0.0
  else if 400 < top then 1.0 / 0.0
  else if d.exponent < 0 then Float.ofScientific d.digits true d.exponent.natAbs
  else Float.ofScientific d.digits false d.exponent.natAbs

instance : Scalar Float where
  decidableLT := inferInstance
  decidableLE := inferInstance
  ofInt := Float.ofInt
  ofDecimal := ofDecimal
  toDecimal := Decimal.shortest
  infinity := 1.0 / 0.0
  missing := 0.0 / 0.0
  pi := 3.141592653589793
  e := 2.718281828459045
  lnTen := 2.302585092994046
  isFinite := Float.isFinite
  isMissing := Float.isNaN
  isNegative := Binary64.isNegative
  whole? := Binary64.whole?
  ceiling? := Binary64.ceiling?
  abs := Float.abs
  floor := Float.floor
  ceil := Float.ceil
  sqrt := Float.sqrt
  exp := Float.exp
  ln := Float.log
  sin := Float.sin
  cos := Float.cos
  sinh := Float.sinh
  cosh := Float.cosh
  atan := Float.atan
  acos := Float.acos
  acosh := Float.acosh
  atan2 := Float.atan2
  hypot := Binary64.hypot

def read? (cs : List Char) : Option Float := Scalar.read? cs

end ComplexSeries.Double
