import ComplexSeries.Lexeme.Basic

/-! Two operands side by side are multiplied. -/
namespace ComplexSeries.Input

open Lexeme

/-- The product that is understood between two neighbours. -/
def link (a b : Lexeme) : List Lexeme :=
  if a.endsOperand && b.startsOperand then [operator .mul] else []

def insertProducts : List Lexeme → List Lexeme
  | [] => []
  | [a] => [a]
  | a :: b :: ls => a :: (link a b ++ insertProducts (b :: ls))

end ComplexSeries.Input
