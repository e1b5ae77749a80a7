import ComplexSeries.Scalar.Double

/-! The values of a settings document. A word is read as a whole number if it fits into sixty-four
bits, else as a real number, else as a truth value, and else it stands for itself. -/
namespace ComplexSeries.Settings

inductive Value where
  | word (s : String)
  | real (a : Float)
  | whole (n : Int)
  | truth (b : Bool)

namespace Value

-- The core library's powers, also where a monoid has powers of its own.
local instance (priority := 2000) corePow : Pow Int Nat := instPowNat

def isIndex (n : Int) : Bool := -2 ^ (63 : Nat) ≤ n && n < 2 ^ (63 : Nat)

def ofWord (cs : List Char) : Value :=
  match (Decimal.intOf? cs).filter isIndex with
  | some n => whole n
  | none =>
    match Double.read? cs with
    | some a => real a
    | none =>
      if cs = ['t', 'r', 'u', 'e'] then truth true
      else if cs = ['f', 'a', 'l', 's', 'e'] then truth false
      else word (String.ofList cs)

def text : Value → String
  | word s => s
  | real a => String.ofList (Scalar.text a)
  | whole n => String.ofList (Decimal.intText n)
  | truth true => "true"
  | truth false => "false"

def real? : Value → Option Float
  | real a => some a
  | whole n => some (Float.ofInt n)
  | _ => none

def whole? : Value → Option Int
  | whole n => some n
  | _ => none

def truth? : Value → Option Bool
  | truth b => some b
  | _ => none

end Value

end ComplexSeries.Settings
