import ComplexSeries.Input.Canonical
import ComplexSeries.Expr.Parse
import ComplexSeries.Expr.Fold

/-! From a typed formula to prefix tokens: its canonical spelling is read as a tree, checked, folded
if the settings ask for it, and laid out. -/
namespace ComplexSeries

open Integral (Memory)

variable {R : Type} [Scalar R]

/-- The tree of a typed formula, in scope and within the limit. -/
def treeOf (limit : Nat) (typed : String) : Except ParseError (Expr R) := do
  let e ← Expr.read limit (← canonical typed)
  e.validate
  return e

/-- The tokens of a typed formula. Folding may already learn integrals. -/
def compile (settings : Settings R) (typed : String) :
    StateM (Memory R) (Except ParseError (List (Token R))) :=
  match treeOf settings.maxDepth typed with
  | .error cause => return .error cause
  | .ok e => do
    let e ← if settings.foldConstants then e.fold settings else pure e
    return .ok e.tokens

end ComplexSeries
