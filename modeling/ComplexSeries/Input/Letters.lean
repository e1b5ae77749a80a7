import ComplexSeries.ParseError
import ComplexSeries.Variable
import ComplexSeries.Lexeme.Arguments

/-! Which letters a formula may use: its two variables `x` and `n`, the imaginary unit `i`, and the
letters that its aggregates declare as indices. -/
namespace ComplexSeries.Input

open Lexeme

/-- The letter an aggregate declares: its fourth and last argument, if that is a single letter. -/
def declared? (afterOpen : List Lexeme) : Option Char :=
  match arguments? afterOpen with
  | some [_, _, _, [letter c]] => some c
  | _ => none

/-- The letters declared by the aggregates of a list, from left to right. None may be a variable. -/
def indices : List Lexeme → Except ParseError (List Char)
  | [] => .ok []
  | keyword (.aggregate _) :: lparen :: ls =>
    match declared? ls with
    | none => indices ls
    | some c => if isVariable c then .error (.captureConflict c) else (indices ls).map (c :: ·)
  | _ :: ls => indices ls

/-- The first letter that is none of those allowed is refused. -/
def checkLetters (declared : List Char) : List Lexeme → Except ParseError Unit
  | [] => .ok ()
  | letter c :: ls =>
    if isVariable c || c = 'i' || declared.contains c then checkLetters declared ls
    else .error (.disallowedCharacter c)
  | _ :: ls => checkLetters declared ls

end ComplexSeries.Input
