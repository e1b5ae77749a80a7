import ComplexSeries.Expr.Basic
import ComplexSeries.Token.Basic

/-! The prefix tokens of a tree. A named constant becomes a literal. -/
namespace ComplexSeries.Expr

variable {R : Type} [Scalar R]

def tokens : Expr R → List (Token R)
  | const z => [.literal z]
  | constant c => [.literal (Complex.ofConstant c)]
  | var name => [.var name]
  | binary o a b => .operation (.binary o) :: (a.tokens ++ b.tokens)
  | call f a => .operation (.call f) :: a.tokens
  | log a b => .operation .log :: (a.tokens ++ b.tokens)
  | aggregate a lower upper body index =>
    .operation (.aggregate a) :: (lower.tokens ++ upper.tokens ++ body.tokens ++ [.binder index])

end ComplexSeries.Expr
