import ComplexSeries.Complex.Bounds

/-! Sums and products over a range of indices. The term is a computation in any monad, so it may
fail or change a state; it runs once for each index, in ascending order. -/
namespace ComplexSeries

/-- The indices between two bounds. Bounds that are not real make the range invalid before it can be
empty, and only a range that is not empty needs whole bounds. -/
inductive IndexRange where
  | invalid
  | empty
  | inclusive (first last : Int)
deriving DecidableEq, Repr

namespace IndexRange

variable {R : Type} [Scalar R] {m : Type → Type} [Monad m]

def between (lower upper : Complex R) : IndexRange :=
  match lower.real?, upper.real? with
  | some a, some b =>
    if b < a then empty
    else
      match lower.integer?, upper.integer? with
      | some first, some last => inclusive first last
      | _, _ => invalid
  | _, _ => invalid

/-- Folds the terms of `count` indices from `k` on into `total`. -/
def foldFrom (combine : Complex R → Complex R → Complex R) (term : Int → m (Complex R)) :
    (count : Nat) → (k : Int) → (total : Complex R) → m (Complex R)
  | 0, _, total => pure total
  | count + 1, k, total => do
    let value ← term k
    foldFrom combine term count (k + 1) (combine total value)

/-- Undefined on an invalid range, `unit` on an empty one. -/
def fold (combine : Complex R → Complex R → Complex R) (unit : Complex R)
    (term : Int → m (Complex R)) : IndexRange → m (Complex R)
  | invalid => pure Complex.undefined
  | empty => pure unit
  | inclusive first last => foldFrom combine term (last - first + 1).toNat first unit

def sum (lower upper : Complex R) (term : Int → m (Complex R)) : m (Complex R) :=
  (between lower upper).fold (· + ·) (Complex.ofInt 0) term

def product (lower upper : Complex R) (term : Int → m (Complex R)) : m (Complex R) :=
  (between lower upper).fold (· * ·) (Complex.ofInt 1) term

end IndexRange

end ComplexSeries
