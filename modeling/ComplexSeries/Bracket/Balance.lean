import ComplexSeries.ParseError

/-! Checks made on the characters of a formula before it is split into lexemes: brackets balance
and none stands empty, and no operator follows another. -/
namespace ComplexSeries.Bracket

/-- `justOpened` tells whether the character before was an opening bracket. -/
def checkFrom (depth : Nat) (justOpened : Bool) : List Char → Except ParseError Unit
  | [] => if depth = 0 then .ok () else .error .unbalancedBrackets
  | c :: cs =>
    if c = '(' then checkFrom (depth + 1) true cs
    else if c = ')' then
      match depth with
      | 0 => .error .unbalancedBrackets
      | depth + 1 => if justOpened then .error .emptyBrackets else checkFrom depth false cs
    else checkFrom depth false cs

def check (cs : List Char) : Except ParseError Unit := checkFrom 0 false cs

def isOperator (c : Char) : Bool :=
  c = '+' || c = '-' || c = '*' || c = '/' || c = '^'

/-- The place of the second of the first two operators in a row. -/
def doubledOperator? : List Char → Option Nat
  | a :: b :: cs =>
    if isOperator a && isOperator b then some 1 else (doubledOperator? (b :: cs)).map (· + 1)
  | _ => none

def checkOperators (cs : List Char) : Except ParseError Unit :=
  match doubledOperator? cs with
  | some place => .error (.consecutiveOperators place)
  | none => .ok ()

end ComplexSeries.Bracket
