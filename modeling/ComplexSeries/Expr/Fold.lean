import ComplexSeries.Token.OfExpr
import ComplexSeries.Eval
import ComplexSeries.Expr.Parse
import ComplexSeries.Expr.Text

/-! Folding: a subtree with a value of its own, if that is finite, becomes a literal. The tree is
folded from the top, so nothing inside a folded subtree is visited; inside one that has no finite
value the search goes on. -/
namespace ComplexSeries.Expr

open Integral (Memory)

variable {R : Type} [Scalar R]

/-- The value of a closed tree that is not a literal already. The point does not matter. -/
def ownValue? (settings : Settings R) (e : Expr R) : StateM (Memory R) (Option (Complex R)) :=
  if e.isConst || !e.isClosed then pure none
  else do
    let one := Complex.ofInt 1
    match ← (evaluate settings e.tokens one one).run with
    | .ok z => return if z.isFinite then some z else none
    | .error _ => return none

def fold (settings : Settings R) (e : Expr R) : StateM (Memory R) (Expr R) := do
  match ← ownValue? settings e with
  | some z => return .const z
  | none =>
    match e with
    | binary o a b => do
      let a ← fold settings a
      let b ← fold settings b
      return binary o a b
    | log a b => do
      let a ← fold settings a
      let b ← fold settings b
      return log a b
    | call f a => do
      let a ← fold settings a
      return call f a
    | aggregate k lower upper body index => do
      let lower ← fold settings lower
      let upper ← fold settings upper
      let body ← fold settings body
      return aggregate k lower upper body index
    | leaf => return leaf

/-- Folding from spelling to spelling. -/
def foldText (settings : Settings R) (s : String) :
    StateM (Memory R) (Except ParseError String) :=
  match read settings.maxDepth s with
  | .error cause => return .error cause
  | .ok e => do
    let e : Expr R ← e.fold settings
    return .ok e.text

end ComplexSeries.Expr
