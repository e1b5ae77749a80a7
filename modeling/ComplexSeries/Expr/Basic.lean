import ComplexSeries.Variable
import ComplexSeries.Lexeme.Basic
import ComplexSeries.Complex.Basic

/-! The tree of a formula, its free variables and its depth. The depth is found with a list of
pending nodes, so that trees of any height can be measured. -/
namespace ComplexSeries

inductive Expr (R : Type) where
  | const (z : Complex R)
  | constant (c : Constant)
  | var (name : Char)
  | binary (o : Operator) (lhs rhs : Expr R)
  | call (f : Function) (arg : Expr R)
  | log (value base : Expr R)
  /-- The index is bound in the body alone. -/
  | aggregate (a : Aggregate) (lower upper body : Expr R) (index : Char)
deriving Repr

namespace Expr

variable {R : Type}

/-- In the order in which they are evaluated. -/
def children : Expr R → List (Expr R)
  | const _ | constant _ | var _ => []
  | binary _ a b | log a b => [a, b]
  | call _ a => [a]
  | aggregate _ lower upper body _ => [lower, upper, body]

def isConst : Expr R → Bool
  | const _ => true
  | _ => false

/-- The free occurrences of variables, from left to right. -/
def occurrences : Expr R → List Char
  | const _ | constant _ => []
  | var name => [name]
  | binary _ a b | log a b => a.occurrences ++ b.occurrences
  | call _ a => a.occurrences
  | aggregate _ lower upper body index =>
    lower.occurrences ++ upper.occurrences ++ body.occurrences.filter (· != index)

def freeVariables (e : Expr R) : List Char := sortNames e.occurrences

/-- A closed tree has a value of its own. -/
def isClosed (e : Expr R) : Bool := e.freeVariables.isEmpty

/-- The number of nodes. -/
def size : Expr R → Nat
  | const _ | constant _ | var _ => 1
  | binary _ a b | log a b => a.size + b.size + 1
  | call _ a => a.size + 1
  | aggregate _ lower upper body _ => lower.size + upper.size + body.size + 1

/-- Nodes not yet visited, each with the number of nodes on its path from the root. -/
def pendingSize : List (Expr R × Nat) → Nat
  | [] => 0
  | (e, _) :: pending => e.size + pendingSize pending

theorem pendingSize_children (e : Expr R) (level next : Nat) (pending : List (Expr R × Nat)) :
    pendingSize (e.children.map (·, next) ++ pending) < pendingSize ((e, level) :: pending) := by
  cases e <;> simp [children, size, pendingSize] <;> omega

def deepest (best : Nat) : List (Expr R × Nat) → Nat
  | [] => best
  | (e, level) :: pending => deepest (max best level) (e.children.map (·, level + 1) ++ pending)
termination_by pending => pendingSize pending
decreasing_by exact pendingSize_children e level (level + 1) pending

/-- The number of nodes on the longest path from the root. -/
def depth (e : Expr R) : Nat := deepest 0 [(e, 1)]

variable [Scalar R]

def ofInt (n : Int) : Expr R := const (Complex.ofInt n)

/-- A change of sign is a subtraction from zero. -/
def neg (e : Expr R) : Expr R := binary .sub (ofInt 0) e

end Expr

end ComplexSeries
