import ComplexSeries.Lexeme.Basic

/-! Why a formula is refused, and the sentence that says so. -/
namespace ComplexSeries

inductive ParseError where
  | emptyInput
  | unbalancedBrackets
  | emptyBrackets
  | consecutiveOperators (position : Nat)
  | unmatchedBar
  | malformedNumber (digits : List Char)
  | disallowedCharacter (c : Char)
  | captureConflict (index : Char)
  | unboundVariable (name : Char)
  | invalidIndex (found : List Lexeme)
  | arityMismatch (keyword : Keyword) (found : Nat)
  | missingArguments (keyword : Keyword)
  | unexpectedLexeme (found : Lexeme)
  | unexpectedEnd
  | nestingTooDeep (limit : Nat)
  | infiniteLiteral (text : List Char)
deriving DecidableEq, Repr

namespace ParseError

def message : ParseError → String
  | emptyInput => "empty expression"
  | unbalancedBrackets => "brackets are not balanced"
  | emptyBrackets => "empty brackets"
  | consecutiveOperators position => s!"two operators in a row at position {position}"
  | unmatchedBar => "absolute value bar without a closing partner"
  | malformedNumber digits => s!"malformed number '{String.ofList digits}'"
  | disallowedCharacter c => s!"character '{c}' is not allowed here"
  | captureConflict index => s!"index variable '{index}' clashes with a variable already in scope"
  | unboundVariable name =>
    s!"variable '{name}' is not bound by any enclosing sum, product or integral"
  | invalidIndex found => s!"'{String.ofList (Lexeme.render found)}' is not a valid index variable"
  | arityMismatch keyword found =>
    s!"{keyword.name} expects {keyword.arity} argument(s), found {found}"
  | missingArguments keyword =>
    s!"function '{keyword.name}' must be followed by a bracketed argument list"
  | unexpectedLexeme found => s!"unexpected '{found.text}'"
  | unexpectedEnd => "unexpected end of expression"
  | nestingTooDeep limit => s!"expression nests deeper than {limit} levels"
  | infiniteLiteral text => s!"literal {String.ofList text} is not finite"

end ParseError

end ComplexSeries
