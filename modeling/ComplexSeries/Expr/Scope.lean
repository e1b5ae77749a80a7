import ComplexSeries.Expr.Basic
import ComplexSeries.Complex.Text
import ComplexSeries.ParseError

/-! Trees that can be evaluated: every variable is bound, no index hides another name, and every
literal is finite. -/
namespace ComplexSeries.Expr

variable {R : Type} [Scalar R]

/-- A name that may be read where the indices of `scope` are bound. -/
def isBound (scope : List Char) (c : Char) : Bool := isVariable c || scope.contains c

/-- Refuses the first fault met in the order of evaluation. -/
def checkScope (scope : List Char) : Expr R → Except ParseError Unit
  | const z => if z.isFinite then .ok () else .error (.infiniteLiteral z.text)
  | constant _ => .ok ()
  | var name => if isBound scope name then .ok () else .error (.unboundVariable name)
  | binary _ a b | log a b => do
    a.checkScope scope
    b.checkScope scope
  | call _ a => a.checkScope scope
  | aggregate _ lower upper body index => do
    lower.checkScope scope
    upper.checkScope scope
    if isBound scope index then .error (.captureConflict index)
    else body.checkScope (index :: scope)

def validate (e : Expr R) : Except ParseError Unit := e.checkScope []

end ComplexSeries.Expr
