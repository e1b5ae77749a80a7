import ComplexSeries.ParseError

/-! Bars around a text stand for its absolute value. A bar pairs with the next bar of the same
bracket level, so within one level bars open and close in turn, and a level may not end while a bar
is open in it. -/
namespace ComplexSeries.Input

/-- `barOpen` tells whether a bar is open in the present bracket level, `outer` the same of the
levels around it, the nearest first. A closing bracket without a partner begins a level anew. -/
def replaceBarsFrom (barOpen : Bool) (outer : List Bool) :
    List Char → Except ParseError (List Char)
  | [] => if barOpen || outer.any id then .error .unmatchedBar else .ok []
  | c :: cs =>
    if c = '|' then
      if barOpen then (replaceBarsFrom false outer cs).map (')' :: ·)
      else (replaceBarsFrom true outer cs).map ('a' :: 'b' :: 's' :: '(' :: ·)
    else if c = '(' then (replaceBarsFrom false (barOpen :: outer) cs).map (c :: ·)
    else if c = ')' then
      if barOpen then .error .unmatchedBar
      else
        match outer with
        | [] => (replaceBarsFrom false [] cs).map (c :: ·)
        | level :: outer => (replaceBarsFrom level outer cs).map (c :: ·)
    else (replaceBarsFrom barOpen outer cs).map (c :: ·)

/-- A pair of bars becomes a call of `abs`. -/
def replaceBars (cs : List Char) : Except ParseError (List Char) := replaceBarsFrom false [] cs

end ComplexSeries.Input
