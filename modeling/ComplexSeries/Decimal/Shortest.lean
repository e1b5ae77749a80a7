import ComplexSeries.Decimal.Basic
import ComplexSeries.Decimal.Binary64

/-! Decimals for the values of `Float`: the shortest that reads back, and the nearest of those. All
comparisons are exact, on fractions of natural numbers. -/
namespace ComplexSeries.Decimal

-- The core library's powers, also where a monoid has powers of its own.
local instance (priority := 2000) corePow : Pow Nat Nat := instPowNat

/-- A positive fraction. -/
structure Fraction where
  num : Nat
  den : Nat

namespace Fraction

/-- `base ^ exponent` times a natural number. -/
def scaled (n base : Nat) (exponent : Int) : Fraction :=
  if 0 ≤ exponent then ⟨n * base ^ exponent.toNat, 1⟩ else ⟨n, base ^ exponent.natAbs⟩

def mul (a b : Fraction) : Fraction := ⟨a.num * b.num, a.den * b.den⟩

def le (a b : Fraction) : Bool := a.num * b.den ≤ b.num * a.den

def lt (a b : Fraction) : Bool := a.num * b.den < b.num * a.den

/-- The exponent of the power of ten at or just below a fraction. The binary logarithm gives it up
to one. -/
def leadingExponent (a : Fraction) : Int :=
  let guess := ((a.num.log2 : Int) - a.den.log2) * 30103 / 100000
  if (scaled 1 10 (guess + 1)).le a then guess + 1
  else if (scaled 1 10 guess).le a then guess
  else guess - 1

end Fraction

/-- The numbers that round to a value lie between `low` and `high`, the ends included or not. -/
structure Interval where
  low : Fraction
  high : Fraction
  closed : Bool

def Interval.contains (i : Interval) (a : Fraction) : Bool :=
  if i.closed then i.low.le a && a.le i.high else i.low.lt a && a.lt i.high

/-- Halfway to the neighbours. Below a power of two the neighbour is twice as near. The ends belong
to the value whose significand is even. -/
def roundingInterval (m : Binary64.Magnitude) : Interval :=
  let gapBelow := if m.significand = 2 ^ (52 : Nat) && -1074 < m.exponent then 1 else 2
  ⟨.scaled (4 * m.significand - gapBelow) 2 (m.exponent - 2),
   .scaled (4 * m.significand + 2) 2 (m.exponent - 2),
   m.significand % 2 = 0⟩

/-- The value's two neighbours among the multiples of `10 ^ exponent`: the one inside the interval,
and of two inside it the nearer, the upper of two that are as near. -/
def hit? (value : Fraction) (within : Interval) (exponent : Int) : Option Decimal :=
  let grid := value.mul (.scaled 1 10 (-exponent))
  let below := grid.num / grid.den
  let inside (n : Nat) := within.contains (.scaled n 10 exponent)
  let belowIn := below != 0 && inside below
  if inside (below + 1) && (!belowIn || grid.den ≤ 2 * (grid.num % grid.den)) then
    some ⟨below + 1, exponent⟩
  else if belowIn then some ⟨below, exponent⟩
  else none

/-- Zeros at the end go into the exponent; `fuel` bounds their number. -/
def trimmed : (fuel : Nat) → Decimal → Decimal
  | 0, d => d
  | fuel + 1, d => if d.digits % 10 = 0 then trimmed fuel ⟨d.digits / 10, d.exponent + 1⟩ else d

/-- Seventeen digits always suffice. -/
def shortestOf (m : Binary64.Magnitude) : Decimal :=
  if m.significand = 0 then ⟨0, 0⟩
  else
    let value := Fraction.scaled m.significand 2 m.exponent
    let top := value.leadingExponent
    let within := roundingInterval m
    match (List.range 17).findSome? fun n : Nat => hit? value within (top - n) with
    | some d => trimmed 17 d
    | none => ⟨0, 0⟩

/-- The shortest decimal that reads back as the magnitude of a finite value. -/
def shortest (x : Float) : Decimal := shortestOf (Binary64.magnitude x)

end ComplexSeries.Decimal
