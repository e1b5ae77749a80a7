/-! A decimal is a natural number times a power of ten. It is spelled without an exponent. -/
namespace ComplexSeries

/-- The value is `digits * 10 ^ exponent`. -/
structure Decimal where
  digits : Nat
  exponent : Int
deriving DecidableEq, Repr

namespace Decimal

def digitsOf (n : Nat) : List Char := Nat.toDigits 10 n

def intText (n : Int) : List Char :=
  if n < 0 then '-' :: digitsOf n.natAbs else digitsOf n.natAbs

/-- A point is set before the last `places` digits, with a zero before it if no digit is left. -/
def withPoint (ds : List Char) (places : Nat) : List Char :=
  if places < ds.length then ds.take (ds.length - places) ++ '.' :: ds.drop (ds.length - places)
  else '0' :: '.' :: (List.replicate (places - ds.length) '0' ++ ds)

def positional (d : Decimal) : List Char :=
  if d.exponent < 0 then withPoint (digitsOf d.digits) d.exponent.natAbs
  else digitsOf d.digits ++ List.replicate d.exponent.natAbs '0'

end Decimal

end ComplexSeries
