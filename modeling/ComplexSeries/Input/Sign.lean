import ComplexSeries.Lexeme.Basic

/-! A leading sign becomes an operator by a zero written before it. After a separator the signed
argument is also bracketed as a whole, so that it stays one operand of its list. -/
namespace ComplexSeries.Input

open Lexeme

def zero : Lexeme := number ['0']

/-- What stands before a lexeme, as far as signs are concerned. -/
inductive Before where
  | opening
  | separator
  | operand
deriving DecidableEq, Repr

def Before.of : Lexeme → Before
  | .lparen => opening
  | .separator => separator
  | _ => operand

/-- The closing bracket owed to a signed argument. -/
def owed (signed : Bool) : List Lexeme := if signed then [rparen] else []

/-- `signed` tells whether the argument being read has been given an opening bracket, `outer` the
same of the arguments around it, the innermost first. -/
def rewriteSignsFrom (before : Before) (signed : Bool) (outer : List Bool) :
    List Lexeme → List Lexeme
  | [] => owed signed ++ outer.flatMap owed
  | lparen :: ls => lparen :: rewriteSignsFrom .opening false (signed :: outer) ls
  | rparen :: ls =>
    match outer with
    | [] => owed signed ++ rparen :: rewriteSignsFrom .operand false [] ls
    | level :: outer => owed signed ++ rparen :: rewriteSignsFrom .operand level outer ls
  | .separator :: ls => owed signed ++ .separator :: rewriteSignsFrom .separator false outer ls
  | l :: ls =>
    if l.isSign then
      match before with
      | .opening => zero :: l :: rewriteSignsFrom .operand signed outer ls
      | .separator => lparen :: zero :: l :: rewriteSignsFrom .operand true outer ls
      | .operand => l :: rewriteSignsFrom .operand signed outer ls
    else l :: rewriteSignsFrom .operand signed outer ls

def rewriteSigns (ls : List Lexeme) : List Lexeme := rewriteSignsFrom .opening false [] ls

end ComplexSeries.Input
