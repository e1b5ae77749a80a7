import ComplexSeries.Keyword

/-! The lexical units of a formula and their spelling. Lexemes are written side by side, without
anything between them. -/
namespace ComplexSeries

/-- The five operators written between their operands. -/
inductive Operator where
  | add | sub | mul | div | pow
deriving DecidableEq, Repr

inductive Lexeme where
  | number (digits : List Char)
  | keyword (k : Keyword)
  | letter (c : Char)
  | operator (o : Operator)
  | lparen
  | rparen
  | separator
  | degree
  | percent
deriving DecidableEq, Repr

namespace Operator

def symbol : Operator → Char
  | add => '+'
  | sub => '-'
  | mul => '*'
  | div => '/'
  | pow => '^'

def isSign : Operator → Bool
  | add | sub => true
  | _ => false

end Operator

namespace Lexeme

def letters : Lexeme → List Char
  | number digits => digits
  | keyword k => k.letters
  | letter c => [c]
  | operator o => [o.symbol]
  | lparen => ['(']
  | rparen => [')']
  | separator => [';']
  | degree => ['°']
  | percent => ['%']

def render (ls : List Lexeme) : List Char := ls.flatMap letters

def text (l : Lexeme) : String := String.ofList l.letters

def isOpen : Lexeme → Bool
  | lparen => true
  | _ => false

def isClose : Lexeme → Bool
  | rparen => true
  | _ => false

def isSign : Lexeme → Bool
  | operator o => o.isSign
  | _ => false

/-- The marks follow their operand. -/
def isMark : Lexeme → Bool
  | degree | percent => true
  | _ => false

def endsOperand : Lexeme → Bool
  | number _ | letter _ | rparen | degree | percent => true
  | keyword k => k.isConstant
  | _ => false

def startsOperand : Lexeme → Bool
  | number _ | letter _ | keyword _ | lparen => true
  | _ => false

@[simp] theorem render_nil : render [] = [] := rfl

@[simp] theorem render_cons (l : Lexeme) (ls : List Lexeme) :
    render (l :: ls) = l.letters ++ render ls := rfl

@[simp] theorem render_append (ks ls : List Lexeme) :
    render (ks ++ ls) = render ks ++ render ls := by
  simp [render]

end Lexeme

end ComplexSeries
