import ComplexSeries.ParseError
import ComplexSeries.Bracket.Pair

/-! The marks for degrees and percents turn their operand into a bracketed product. The operand is
what ends just before the mark: a number, a letter, a constant, or a bracketed group together with
the name it is the argument list of. -/
namespace ComplexSeries.Input

open Lexeme

/-- Splits what has been written, last lexeme first, into the operand it ends with and the rest. -/
def operand? : (written : List Lexeme) → Option (List Lexeme × List Lexeme)
  | number digits :: ls => some ([number digits], ls)
  | letter c :: ls => some ([letter c], ls)
  | keyword (.constant c) :: ls => some ([keyword (.constant c)], ls)
  | rparen :: ls =>
    match Bracket.distance? isClose isOpen 0 (rparen :: ls) with
    | none => none
    | some d =>
      let group := (rparen :: ls).take (d + 1)
      match (rparen :: ls).drop (d + 1) with
      | keyword k :: rest =>
        if k.isConstant then some (group, keyword k :: rest)
        else some (group ++ [keyword k], rest)
      | rest => some (group, rest)
  | _ => none

/-- The factor a mark stands for, with the closing bracket, last lexeme first. -/
def degreeFactor : List Lexeme :=
  [rparen, number ['1', '8', '0'], operator .div, keyword (.constant .pi), operator .mul]

def percentFactor : List Lexeme := [rparen, number ['0', '.', '0', '1'], operator .mul]

/-- Brackets the operand that ends `written` and multiplies it. -/
def expand? (factor written : List Lexeme) : Option (List Lexeme) :=
  (operand? written).map fun (operand, rest) => factor ++ operand ++ lparen :: rest

/-- `written` holds what precedes, last lexeme first. -/
def expandMarksFrom (written : List Lexeme) : List Lexeme → Except ParseError (List Lexeme)
  | [] => .ok written.reverse
  | degree :: ls =>
    match expand? degreeFactor written with
    | some written => expandMarksFrom written ls
    | none => .error (.disallowedCharacter '°')
  | percent :: ls =>
    match expand? percentFactor written with
    | some written => expandMarksFrom written ls
    | none => .error (.disallowedCharacter '%')
  | l :: ls => expandMarksFrom (l :: written) ls

/-- Marks are expanded from left to right. -/
def expandMarks (ls : List Lexeme) : Except ParseError (List Lexeme) := expandMarksFrom [] ls

end ComplexSeries.Input
