import ComplexSeries.Compile

/-! One compiled formula with the integrals it has learnt. -/
namespace ComplexSeries

open Integral (Memory)

variable {R : Type} [Scalar R]

structure Slot (R : Type) where
  typed : String
  compiled : Except ParseError (List (Token R))
  memory : Memory R

namespace Slot

def ofTyped (settings : Settings R) (typed : String) : Slot R :=
  let (compiled, memory) := (compile settings typed).run []
  ⟨typed, compiled, memory⟩

end Slot

end ComplexSeries
