import ComplexSeries.Decimal.Numeral

/-! The real numbers a calculation is made of. Everything from complex arithmetic to integrals is
written against this interface, so that a statement proved of it holds for any numbers that have
these operations, rounded or exact. Comparisons need not be total: a missing value equals nothing,
not even itself. -/
namespace ComplexSeries

class Scalar (R : Type) extends Add R, Sub R, Mul R, Div R, Neg R, BEq R, LT R, LE R where
  decidableLT : DecidableLT R
  decidableLE : DecidableLE R
  ofInt : Int → R
  /-- The nearest scalar. -/
  ofDecimal : Decimal → R
  /-- The shortest decimal that reads back as the magnitude of a finite scalar. -/
  toDecimal : R → Decimal
  infinity : R
  missing : R
  pi : R
  e : R
  /-- The natural logarithm of ten. -/
  lnTen : R
  isFinite : R → Bool
  isMissing : R → Bool
  /-- The sign that a scalar is written with; zero has one too. -/
  isNegative : R → Bool
  /-- The scalar as a whole number, if it is one. -/
  whole? : R → Option Int
  /-- The least natural number not below a finite scalar. -/
  ceiling? : R → Option Nat
  abs : R → R
  floor : R → R
  ceil : R → R
  sqrt : R → R
  exp : R → R
  ln : R → R
  sin : R → R
  cos : R → R
  sinh : R → R
  cosh : R → R
  atan : R → R
  acos : R → R
  acosh : R → R
  /-- The angle of the vector whose second and first components are given. -/
  atan2 : R → R → R
  hypot : R → R → R

namespace Scalar

attribute [reducible, instance] decidableLT decidableLE

variable {R : Type} [Scalar R]

def zero : R := ofInt 0

def one : R := ofInt 1

def two : R := ofInt 2

def halfPi : R := pi / two

/-- Infinite, with either sign. -/
def isInfinite (a : R) : Bool := !isFinite a && !isMissing a

/-- The order in which the missing value comes last. -/
def nearer (a b : R) : Bool := a < b || (isMissing b && !isMissing a)

/-- The text of the magnitude, positional and as short as reads back. -/
def magnitudeText (a : R) : List Char :=
  if isFinite a then (toDecimal a).positional else ['i', 'n', 'f']

def text (a : R) : List Char :=
  if isMissing a then ['N', 'a', 'N']
  else if isNegative a then '-' :: magnitudeText a
  else magnitudeText a

def ofMagnitude : Decimal.Magnitude → R
  | .missing => missing
  | .infinite => infinity
  | .finite d => ofDecimal d

/-- A signed numeral with an optional exponent, or the name of a value that is not finite. -/
def read? (cs : List Char) : Option R :=
  let (negative, rest) := Decimal.splitSign cs
  (Decimal.magnitude? rest).map fun m => if negative then -(ofMagnitude m) else ofMagnitude m

end Scalar

end ComplexSeries
