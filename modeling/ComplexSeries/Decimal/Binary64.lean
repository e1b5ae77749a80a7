/-! The finite values of `Float` as exact numbers `significand * 2 ^ exponent`, and the nearest
value of such a number. -/
namespace ComplexSeries.Binary64

-- The core library's powers, also where a monoid has powers of its own.
local instance (priority := 2000) corePow : Pow Nat Nat := instPowNat

structure Magnitude where
  significand : Nat
  exponent : Int
deriving DecidableEq, Repr

def bits (x : Float) : Nat := x.toBits.toNat

def isNegative (x : Float) : Bool := bits x / 2 ^ (63 : Nat) = 1

/-- The magnitude of a finite value. -/
def magnitude (x : Float) : Magnitude :=
  let fraction : Nat := bits x % 2 ^ (52 : Nat)
  let biased : Nat := bits x / 2 ^ (52 : Nat) % 2 ^ (11 : Nat)
  if biased = 0 then ⟨fraction, -1074⟩ else ⟨fraction + 2 ^ (52 : Nat), (biased : Int) - 1075⟩

/-- A half goes to the even neighbour. -/
def roundShift (n : Nat) (places : Nat) : Nat :=
  let quotient := n / 2 ^ places
  let rest := 2 * (n % 2 ^ places)
  if 2 ^ places < rest || (rest = 2 ^ places && quotient % 2 = 1) then quotient + 1 else quotient

/-- The value nearest to a positive number: at most 53 significant bits, none below `2 ^ -1074`.
A carry out of the significand raises the exponent field, up to infinity. -/
def nearest (m : Magnitude) : Float :=
  let exponent := max (-1074) (m.exponent + m.significand.log2 - 52)
  let significand :=
    if exponent ≤ m.exponent then m.significand * 2 ^ (m.exponent - exponent).toNat
    else roundShift m.significand (exponent - m.exponent).toNat
  let word := significand + (exponent + 1074).toNat * 2 ^ (52 : Nat)
  Float.ofBits (UInt64.ofNat (min word (2047 * 2 ^ (52 : Nat))))

/-- The largest number of `count` more bits after `root` whose square is at most `n`. -/
def squareRootBits (n root : Nat) : (count : Nat) → Nat
  | 0 => root
  | count + 1 =>
    let next := root + 2 ^ count
    squareRootBits n (if next * next ≤ n then next else root) count

/-- The whole part of a square root. -/
def squareRoot (n : Nat) : Nat := squareRootBits n 0 (n.log2 / 2 + 1)

/-- The length of the hypotenuse, rounded once: the root is taken to sixty bits, with a last bit
that tells whether anything was cut off. -/
def hypotenuse (a b : Magnitude) : Float :=
  let exponent := min a.exponent b.exponent
  let side (m : Magnitude) := m.significand * 2 ^ (m.exponent - exponent).toNat
  let square := side a * side a + side b * side b
  let extra := (120 - square.log2) / 2
  let scaled := square * 4 ^ extra
  let root := squareRoot scaled
  let sticky := if root * root = scaled then 0 else 1
  nearest ⟨2 * root + sticky, exponent - extra - 1⟩

/-- The length of the vector, infinite as soon as a component is. -/
def hypot (x y : Float) : Float :=
  if x.isInf || y.isInf then 1.0 / 0.0
  else if x.isNaN || y.isNaN then 0.0 / 0.0
  else if x == 0.0 then y.abs
  else if y == 0.0 then x.abs
  else hypotenuse (magnitude x) (magnitude y)

/-- The value as a whole number, if it is one. -/
def whole? (x : Float) : Option Int :=
  if x.isFinite then
    let m := magnitude x
    let sign : Int := if isNegative x then -1 else 1
    if 0 ≤ m.exponent then some (sign * (m.significand * 2 ^ m.exponent.toNat : Nat))
    else
      let unit := 2 ^ m.exponent.natAbs
      if m.significand % unit = 0 then some (sign * (m.significand / unit : Nat)) else none
  else none

/-- The least natural number that is not below a finite value. -/
def ceiling? (x : Float) : Option Nat :=
  if x.isFinite then
    if isNegative x then some 0
    else
      let m := magnitude x
      if 0 ≤ m.exponent then some (m.significand * 2 ^ m.exponent.toNat)
      else
        let unit := 2 ^ m.exponent.natAbs
        some ((m.significand + (unit - 1)) / unit)
  else none

end ComplexSeries.Binary64
