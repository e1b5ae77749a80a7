import ComplexSeries.Lexeme.Basic
import ComplexSeries.Complex.Text

/-! Prefix tokens. An operation is followed by its operands, one after the other; the last operand
of an aggregate is a binder that names its index. -/
namespace ComplexSeries

inductive Operation where
  | binary (o : Operator)
  | call (f : Function)
  | log
  | aggregate (a : Aggregate)
deriving DecidableEq, Repr

namespace Operation

/-- The number of operands; an aggregate counts its binder. -/
def arity : Operation → Nat
  | binary _ => 2
  | call _ => 1
  | log => 2
  | aggregate _ => 4

def letters : Operation → List Char
  | binary o => [o.symbol]
  | call f => f.letters
  | log => ['l', 'o', 'g']
  | aggregate a => a.letters

end Operation

inductive Token (R : Type) where
  | literal (z : Complex R)
  | var (name : Char)
  | operation (op : Operation)
  | binder (index : Char)
deriving DecidableEq, Repr

namespace Token

variable {R : Type}

/-- The number of operands that follow. -/
def arity : Token R → Nat
  | operation op => op.arity
  | _ => 0

/-- The tokens of `count` operands, and what follows them; `none` if the list ends before. -/
def split? : (count : Nat) → List (Token R) → Option (List (Token R) × List (Token R))
  | 0, ts => some ([], ts)
  | _ + 1, [] => none
  | count + 1, t :: ts => (split? (count + t.arity) ts).map fun (span, rest) => (t :: span, rest)

/-- Where the operand that begins at `start` ends. -/
def spanEnd? (ts : List (Token R)) (start : Nat) : Option Nat :=
  (split? 1 (ts.drop start)).map fun (span, _) => start + span.length

variable [Scalar R]

/-- Literals are compared by value, so none with a missing component equals itself. -/
def same : Token R → Token R → Bool
  | literal z, literal w => z == w
  | var c, var d => c == d
  | operation o, operation p => o == p
  | binder c, binder d => c == d
  | _, _ => false

instance : BEq (Token R) := ⟨same⟩

def letters : Token R → List Char
  | literal z => '(' :: Scalar.text z.re ++ ',' :: Scalar.text z.im ++ [')']
  | var name => [name]
  | operation op => op.letters
  | binder index => ['[', index, ']']

/-- Tokens are written with a space between them. -/
def listLetters : List (Token R) → List Char
  | [] => []
  | [t] => t.letters
  | t :: ts => t.letters ++ ' ' :: listLetters ts

end Token

end ComplexSeries
