import ComplexSeries.Expr.Basic
import ComplexSeries.Complex.Text

/-! The bracketed spelling of a tree: every operation between two operands has brackets of its own,
so it is read back whatever the precedence of its neighbours. -/
namespace ComplexSeries.Expr

variable {R : Type} [Scalar R]

def letters : Expr R → List Char
  | const z => z.literal
  | constant c => c.letters
  | var name => [name]
  | binary o a b => '(' :: a.letters ++ o.symbol :: b.letters ++ [')']
  | call f a => f.letters ++ '(' :: a.letters ++ [')']
  | log a b => ['l', 'o', 'g', '('] ++ a.letters ++ ';' :: b.letters ++ [')']
  | aggregate a lower upper body index =>
    a.letters ++ '(' :: lower.letters ++ ';' :: upper.letters ++ ';' :: body.letters ++
      [';', index, ')']

def text (e : Expr R) : String := String.ofList e.letters

end ComplexSeries.Expr
