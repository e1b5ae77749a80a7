import ComplexSeries.Variable
import ComplexSeries.Complex.Elementary
import ComplexSeries.IndexRange
import ComplexSeries.Integral.Riemann
import ComplexSeries.Integral.Memory

/-! The value of a list of prefix tokens. Each operand is read where it stands and the rest of the
list is handed on; the body of an aggregate is read anew for each value of its index. Walking into
an operand spends one of the levels that are left. What a walk learns about integrals is kept,
whether it ends well or not. -/
namespace ComplexSeries

open Integral (Memory Request Plan Segment)

/-- How a list of tokens can fail to be the tokens of a tree. -/
inductive TokenFault where
  | emptyList
  | trailing (count : Nat)
  | unbound (name : Char)
  | cutOff
  | strayBinder (index : Char)
  | bodyCutOff
  | binderExpected (found : List Char)
deriving DecidableEq, Repr

inductive EvalError where
  | depthExceeded (limit : Nat)
  | malformed (fault : TokenFault)
deriving DecidableEq, Repr

namespace TokenFault

def message : TokenFault → String
  | emptyList => "empty token list"
  | trailing count => s!"{count} trailing tokens"
  | unbound name => s!"unbound variable {name}"
  | cutOff => "list ends inside an operand"
  | strayBinder index => s!"binder {index} outside an aggregate"
  | bodyCutOff => "aggregate body is cut off"
  | binderExpected found => s!"expected a binder, found {String.ofList found}"

end TokenFault

namespace EvalError

def message : EvalError → String
  | depthExceeded limit => s!"evaluation exceeded the recursion limit of {limit}"
  | malformed fault => s!"malformed token list: {fault.message}"

end EvalError

namespace Eval

variable {R : Type}

/-- The bound variables, innermost first. -/
abbrev Env (R : Type) := List (Char × Complex R)

/-- A run that may fail keeps the memory either way. -/
abbrev Run (R : Type) := ExceptT EvalError (StateM (Memory R))

/-- A walker returns the value of the first operand and the tokens after it. -/
abbrev Walker (R : Type) := Env R → List (Token R) → Run R (Complex R × List (Token R))

def fault {α : Type} (f : TokenFault) : Run R α := throw (.malformed f)

def Env.find? (env : Env R) (name : Char) : Option (Complex R) :=
  (List.find? (·.1 == name) env).map (·.2)

/-- The values of the variables that a body reads from outside, in the order of their names. The
indices of aggregates inside it have no value yet. -/
def bindings (env : Env R) (index : Char) (body : List (Token R)) : List (Char × Complex R) :=
  let names := body.filterMap fun
    | .var name => if name = index then none else some name
    | _ => none
  (sortNames names).filterMap fun name => (env.find? name).map (name, ·)

variable [Scalar R]

section Memory

variable {m : Type → Type} [Monad m] [MonadStateOf (Memory R) m]

/-- Carries out the plan for a request with `lower < upper`. -/
def remember (settings : Settings R) (sample : R → m (Complex R)) (request : Request R) :
    m (Complex R) := do
  let sampled (s : Segment R) := Integral.riemann s.start s.stop s.pieces sample
  let keep (value : Complex R) : m Unit := modify (· ++ [⟨request, value⟩])
  match Integral.plan settings (← get) request with
  | .known value => return value
  | .cold pieces => do
    let value ← sampled ⟨request.lower, request.upper, pieces⟩
    keep value
    return value
  | .extend base lower upper store => do
    let head ← sampled lower
    let tail ← sampled upper
    let value := base + head + tail
    if store then keep value
    return value

/-- Undefined unless both bounds are real. -/
def integral (settings : Settings R) (sample : R → m (Complex R)) (lower upper : Complex R)
    (request : R → R → Request R) : m (Complex R) :=
  match lower.real?, upper.real? with
  | some a, some b =>
    if a == b then pure (Complex.ofInt 0)
    else if b < a then do
      let value ← remember settings sample (request b a)
      return -value
    else remember settings sample (request a b)
  | _, _ => pure Complex.undefined

end Memory

/-- Bounds, body and binder of an aggregate. -/
def walkAggregate (settings : Settings R) (walk : Walker R) (a : Aggregate) : Walker R :=
  fun env ts => do
    let (lower, rest) ← walk env ts
    let (upper, rest) ← walk env rest
    match Token.split? 1 rest with
    | none => fault .bodyCutOff
    | some (_, []) => fault .cutOff
    | some (body, .binder index :: after) => do
      let sample (z : Complex R) : Run R (Complex R) := do
        let (value, _) ← walk ((index, z) :: env) rest
        return value
      let value ← match a with
        | .sum => IndexRange.sum lower upper fun k => sample (Complex.ofInt k)
        | .product => IndexRange.product lower upper fun k => sample (Complex.ofInt k)
        | .integral =>
          integral settings (fun t => sample (Complex.ofReal t)) lower upper
            (⟨body, index, bindings env index body, ·, ·⟩)
      return (value, after)
    | some (_, t :: _) => fault (.binderExpected t.letters)

def applyOperator : Operator → Complex R → Complex R → Complex R
  | .add => (· + ·)
  | .sub => (· - ·)
  | .mul => (· * ·)
  | .div => Complex.div
  | .pow => Complex.pow

/-- What the operations of a formula compute. -/
structure Interpretation (R : Type) where
  operator : Operator → Complex R → Complex R → Complex R
  function : Function → Complex R → Complex R
  log : (value base : Complex R) → Complex R

def Interpretation.standard : Interpretation R := ⟨applyOperator, Complex.apply, Complex.log⟩

/-- One operand, its own operands read by `walk`. -/
def step (meaning : Interpretation R) (settings : Settings R) (walk : Walker R) : Walker R :=
  fun env ts =>
  match ts with
  | [] => fault .cutOff
  | .literal z :: rest => return (z, rest)
  | .var name :: rest =>
    match env.find? name with
    | some z => return (z, rest)
    | none => fault (.unbound name)
  | .binder index :: _ => fault (.strayBinder index)
  | .operation (.call f) :: rest => do
    let (arg, rest) ← walk env rest
    return (meaning.function f arg, rest)
  | .operation (.binary o) :: rest => do
    let (lhs, rest) ← walk env rest
    let (rhs, rest) ← walk env rest
    return (meaning.operator o lhs rhs, rest)
  | .operation .log :: rest => do
    let (value, rest) ← walk env rest
    let (base, rest) ← walk env rest
    return (meaning.log value base, rest)
  | .operation (.aggregate a) :: rest => walkAggregate settings walk a env rest

/-- The limit is checked before the list is looked at. -/
def walk (meaning : Interpretation R) (settings : Settings R) : (levels : Nat) → Walker R
  | 0 => fun _ _ => throw (.depthExceeded settings.maxDepth)
  | levels + 1 => step meaning settings (walk meaning settings levels)

def startEnv (x n : Complex R) : Env R := [('n', n), ('x', x)]

end Eval

variable {R : Type} [Scalar R]

/-- The value of a whole list of tokens at a point. -/
def evaluateWith (meaning : Eval.Interpretation R) (settings : Settings R) (ts : List (Token R))
    (x n : Complex R) : Eval.Run R (Complex R) := do
  if ts.isEmpty then Eval.fault .emptyList
  let (value, rest) ← Eval.walk meaning settings settings.maxDepth (Eval.startEnv x n) ts
  if !rest.isEmpty then Eval.fault (.trailing rest.length)
  return value

/-- The value where operators and functions mean what they mean for complex numbers. -/
def evaluate (settings : Settings R) (ts : List (Token R)) (x n : Complex R) :
    Eval.Run R (Complex R) :=
  evaluateWith .standard settings ts x n

end ComplexSeries
