/-! The partner of a bracket in a sequence that may hold anything else between brackets and need
not be balanced. One search serves both directions: the closing partner is sought forwards, the
opening partner backwards with the roles of the brackets exchanged. -/
namespace ComplexSeries.Bracket

variable {α : Type}

/-- The distance to the item that brings the nesting, begun at `depth`, back to zero. An item that
would bring it below zero ends the search. -/
def distance? (opens closes : α → Bool) : Nat → List α → Option Nat
  | _, [] => none
  | depth, a :: as =>
    if opens a then (distance? opens closes (depth + 1) as).map (· + 1)
    else if closes a then
      match depth with
      | 0 => none
      | 1 => some 0
      | depth + 2 => (distance? opens closes (depth + 1) as).map (· + 1)
    else (distance? opens closes depth as).map (· + 1)

/-- The place of the item that closes what the item at `place` opens. -/
def closing? (opens closes : α → Bool) (items : List α) (place : Nat) : Option Nat :=
  (distance? opens closes 0 (items.drop place)).map (place + ·)

/-- The place of the item that opens what the item at `place` closes. -/
def opening? (opens closes : α → Bool) (items : List α) (place : Nat) : Option Nat :=
  (distance? closes opens 0 (items.take (place + 1)).reverse).map (place - ·)

end ComplexSeries.Bracket
