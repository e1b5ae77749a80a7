import ComplexSeries.Text.Blank
import ComplexSeries.Bracket.Balance
import ComplexSeries.Lexeme.Scan
import ComplexSeries.Input.Alias
import ComplexSeries.Input.Bars
import ComplexSeries.Input.Letters
import ComplexSeries.Input.Juxtaposition
import ComplexSeries.Input.Sign
import ComplexSeries.Input.Mark

/-! The canonical spelling of a typed formula: no blanks, aliases, bars or marks, every product
written, every sign between two operands. -/
namespace ComplexSeries.Input

/-- The lexemes of a text without blanks, once brackets, operators, bars and letters are found in
order. -/
def checkedLexemes (cs : List Char) : Except ParseError (List Lexeme) := do
  Bracket.check cs
  Bracket.checkOperators cs
  let plain ← replaceBars (respell cs)
  Bracket.check plain
  let ls ← Lexeme.scan plain
  let declared ← indices ls
  checkLetters declared ls
  return ls

/-- The rewriting of lexemes: products, then signs, then marks. -/
def canonicalLexemes (ls : List Lexeme) : Except ParseError (List Lexeme) :=
  expandMarks (rewriteSigns (insertProducts ls))

def canonicalLetters (typed : List Char) : Except ParseError (List Char) :=
  let cs := Text.withoutBlanks typed
  if cs.isEmpty then .error .emptyInput
  else do
    let ls ← checkedLexemes cs
    return Lexeme.render (← canonicalLexemes ls)

end ComplexSeries.Input

namespace ComplexSeries

/-- The canonical spelling of a formula, or why it has none. -/
def canonical (typed : String) : Except ParseError String :=
  (Input.canonicalLetters typed.toList).map String.ofList

end ComplexSeries
