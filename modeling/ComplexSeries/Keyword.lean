/-! The names a formula may use: one-argument functions, the logarithm to a base, the aggregates
that bind an index, and the two constants. A run of letters is split at the longest name that
begins it. -/
namespace ComplexSeries

inductive Function where
  | sinh | cosh | asin | sin | acos | cos | atan | tanh | sqrt | exp | abs | re | im | conj | lg
  | ln | sign | acot | coth | tan | cot | floor | ceil | asinh | acosh | atanh | acoth
deriving DecidableEq, Repr

/-- Operations over an index that ranges between two bounds. -/
inductive Aggregate where
  | sum | product | integral
deriving DecidableEq, Repr

inductive Constant where
  | pi | e
deriving DecidableEq, Repr

inductive Keyword where
  | function (f : Function)
  | log
  | aggregate (a : Aggregate)
  | constant (c : Constant)
deriving DecidableEq, Repr

namespace Function

def all : List Function :=
  [sinh, cosh, asin, sin, acos, cos, atan, tanh, sqrt, exp, abs, re, im, conj, lg, ln, sign, acot,
    coth, tan, cot, floor, ceil, asinh, acosh, atanh, acoth]

def letters : Function → List Char
  | sinh => ['s', 'i', 'n', 'h']
  | cosh => ['c', 'o', 's', 'h']
  | asin => ['a', 's', 'i', 'n']
  | sin => ['s', 'i', 'n']
  | acos => ['a', 'c', 'o', 's']
  | cos => ['c', 'o', 's']
  | atan => ['a', 't', 'a', 'n']
  | tanh => ['t', 'a', 'n', 'h']
  | sqrt => ['s', 'q', 'r', 't']
  | exp => ['e', 'x', 'p']
  | abs => ['a', 'b', 's']
  | re => ['r', 'e']
  | im => ['i', 'm']
  | conj => ['c', 'o', 'n', 'j']
  | lg => ['l', 'g']
  | ln => ['l', 'n']
  | sign => ['s', 'i', 'g', 'n']
  | acot => ['a', 'c', 'o', 't']
  | coth => ['c', 'o', 't', 'h']
  | tan => ['t', 'a', 'n']
  | cot => ['c', 'o', 't']
  | floor => ['f', 'l', 'o', 'o', 'r']
  | ceil => ['c', 'e', 'i', 'l']
  | asinh => ['a', 's', 'i', 'n', 'h']
  | acosh => ['a', 'c', 'o', 's', 'h']
  | atanh => ['a', 't', 'a', 'n', 'h']
  | acoth => ['a', 'c', 'o', 't', 'h']

theorem mem_all (f : Function) : f ∈ all := by cases f <;> decide

end Function

namespace Aggregate

def all : List Aggregate := [sum, product, integral]

def letters : Aggregate → List Char
  | sum => ['s', 'u', 'm']
  | product => ['p', 'r', 'o', 'd']
  | integral => ['i', 'n', 't']

theorem mem_all (a : Aggregate) : a ∈ all := by cases a <;> decide

end Aggregate

namespace Constant

def all : List Constant := [pi, e]

def letters : Constant → List Char
  | pi => ['p', 'i']
  | e => ['e']

theorem mem_all (c : Constant) : c ∈ all := by cases c <;> decide

end Constant

namespace Keyword

def all : List Keyword :=
  Function.all.map function ++ [log] ++ Aggregate.all.map aggregate ++ Constant.all.map constant

def letters : Keyword → List Char
  | function f => f.letters
  | log => ['l', 'o', 'g']
  | aggregate a => a.letters
  | constant c => c.letters

/-- The number of arguments; an aggregate counts its index. -/
def arity : Keyword → Nat
  | function _ => 1
  | log => 2
  | aggregate _ => 4
  | constant _ => 0

def isConstant : Keyword → Bool
  | constant _ => true
  | _ => false

def name (k : Keyword) : String := String.ofList k.letters

/-- The better of two readings of one text is the longer, the earlier if they are as long. -/
def longer : Option Keyword → Keyword → Option Keyword
  | none, k => some k
  | some best, k => if best.letters.length < k.letters.length then some k else some best

/-- The longest name that begins the text. -/
def longest? (cs : List Char) : Option Keyword :=
  (all.filter (·.letters.isPrefixOf cs)).foldl longer none

theorem mem_all (k : Keyword) : k ∈ all := by
  cases k with
  | function f => simp [all, Function.mem_all]
  | log => simp [all]
  | aggregate a => simp [all, Aggregate.mem_all]
  | constant c => simp [all, Constant.mem_all]

end Keyword

end ComplexSeries
