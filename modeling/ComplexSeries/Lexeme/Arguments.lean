import ComplexSeries.Lexeme.Basic

/-! The arguments of a bracketed list, cut at the separators that no inner bracket encloses. -/
namespace ComplexSeries.Lexeme

/-- A lexeme joins the first argument. -/
def joinFirst (l : Lexeme) : List (List Lexeme) → List (List Lexeme)
  | [] => [[l]]
  | a :: as => (l :: a) :: as

/-- The arguments up to the bracket that closes a list whose opening bracket has been read, with
`depth` inner brackets open; `none` if nothing closes it. -/
def argumentsFrom? : (depth : Nat) → List Lexeme → Option (List (List Lexeme))
  | _, [] => none
  | depth, lparen :: ls => (argumentsFrom? (depth + 1) ls).map (joinFirst lparen)
  | 0, rparen :: _ => some [[]]
  | depth + 1, rparen :: ls => (argumentsFrom? depth ls).map (joinFirst rparen)
  | 0, separator :: ls => (argumentsFrom? 0 ls).map ([] :: ·)
  | depth, l :: ls => (argumentsFrom? depth ls).map (joinFirst l)

/-- The arguments of the list whose opening bracket stands just before `ls`. -/
def arguments? (ls : List Lexeme) : Option (List (List Lexeme)) := argumentsFrom? 0 ls

end ComplexSeries.Lexeme
