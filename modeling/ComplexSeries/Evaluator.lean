import ComplexSeries.Eval

/-! An evaluator that is kept between calls. The bound variables and the number of operands that are
being read are parts of it: they are changed before an operand is read and changed back after it,
whether it was read or not. -/
namespace ComplexSeries

open Eval (Env Interpretation)
open Integral (Memory)

structure Evaluator (R : Type) where
  /-- The bound variables, innermost first. -/
  env : Env R
  /-- The number of operands that are being read, one inside the other. -/
  depth : Nat
  memory : Memory R

namespace Evaluator

variable {R α : Type}

/-- A call changes the evaluator, also if it fails. -/
abbrev Call (R : Type) := ExceptT EvalError (StateM (Evaluator R))

/-- A reader returns the value of the first operand and the tokens after it. -/
abbrev Reader (R : Type) := List (Token R) → Call R (Complex R × List (Token R))

def new (memory : Memory R) : Evaluator R := ⟨[], 0, memory⟩

def enter (e : Evaluator R) : Evaluator R := { e with depth := e.depth + 1 }

def leave (e : Evaluator R) : Evaluator R := { e with depth := e.depth - 1 }

def push (name : Char) (z : Complex R) (e : Evaluator R) : Evaluator R :=
  { e with env := (name, z) :: e.env }

def pop (e : Evaluator R) : Evaluator R := { e with env := e.env.tail }

def moveTo (x n : Complex R) (e : Evaluator R) : Evaluator R := { e with env := Eval.startEnv x n }

instance : MonadStateOf (Memory R) (StateM (Evaluator R)) where
  get := modifyGet fun e => (e.memory, e)
  set memory := modify ({ · with memory })
  modifyGet f := modifyGet fun e =>
    let (a, memory) := f e.memory
    (a, { e with memory })

namespace Call

def ask (f : Evaluator R → α) : Call R α := do return f (← getThe (Evaluator R))

def change (f : Evaluator R → Evaluator R) : Call R PUnit := modifyThe (Evaluator R) f

def fault (f : TokenFault) : Call R α := throw (.malformed f)

/-- The change is made however the call ends. -/
def thenAlways (t : Call R α) (f : Evaluator R → Evaluator R) : Call R α :=
  ExceptT.mk do
    let result ← t.run
    modifyThe (Evaluator R) f
    return result

/-- Reads an operand one level further inside. -/
def inside (limit : Nat) (t : Call R α) : Call R α := do
  change enter
  if limit < (← ask depth) then
    change leave
    throw (.depthExceeded limit)
  t.thenAlways leave

end Call

open Call

/-- The value of the operand that begins `ts`, with a variable bound in it. -/
def bound (read : Reader R) (name : Char) (z : Complex R) (ts : List (Token R)) :
    Call R (Complex R) := do
  change (push name z)
  let (value, _) ← (read ts).thenAlways pop
  return value

variable [Scalar R]

def aggregate (settings : Settings R) (read : Reader R) (a : Aggregate) : Reader R := fun ts => do
  let (lower, rest) ← read ts
  let (upper, rest) ← read rest
  match Token.split? 1 rest with
  | none => fault .bodyCutOff
  | some (_, []) => fault .cutOff
  | some (body, .binder index :: after) => do
    let sample (z : Complex R) : Call R (Complex R) := bound read index z rest
    let value ← match a with
      | .sum => IndexRange.sum lower upper fun k => sample (Complex.ofInt k)
      | .product => IndexRange.product lower upper fun k => sample (Complex.ofInt k)
      | .integral => do
        let env ← ask env
        Eval.integral settings (fun t => sample (Complex.ofReal t)) lower upper
          (⟨body, index, Eval.bindings env index body, ·, ·⟩)
    return (value, after)
  | some (_, t :: _) => fault (.binderExpected t.letters)

/-- One token and its operands. -/
def token (meaning : Interpretation R) (settings : Settings R) (read : Reader R) : Reader R
  | [] => fault .cutOff
  | .literal z :: rest => return (z, rest)
  | .var name :: rest => do
    match (← ask env).find? name with
    | some z => return (z, rest)
    | none => fault (.unbound name)
  | .binder index :: _ => fault (.strayBinder index)
  | .operation (.call f) :: rest => do
    let (arg, rest) ← read rest
    return (meaning.function f arg, rest)
  | .operation (.binary o) :: rest => do
    let (lhs, rest) ← read rest
    let (rhs, rest) ← read rest
    return (meaning.operator o lhs rhs, rest)
  | .operation .log :: rest => do
    let (value, rest) ← read rest
    let (base, rest) ← read rest
    return (meaning.log value base, rest)
  | .operation (.aggregate a) :: rest => aggregate settings read a rest

/-- The limit is reached before the fuel is used up, if there is as much of it as there are levels
and one more. -/
def operand (meaning : Interpretation R) (settings : Settings R) : (fuel : Nat) → Reader R
  | 0 => fun _ => throw (.depthExceeded settings.maxDepth)
  | fuel + 1 => fun ts =>
    inside settings.maxDepth (token meaning settings (operand meaning settings fuel) ts)

/-- The value of a whole list of tokens at a point. -/
def evaluate (meaning : Interpretation R) (settings : Settings R) (ts : List (Token R))
    (x n : Complex R) : Call R (Complex R) := do
  if ts.isEmpty then fault .emptyList
  change (moveTo x n)
  let (value, rest) ← operand meaning settings (settings.maxDepth + 1) ts
  if !rest.isEmpty then fault (.trailing rest.length)
  return value

end Evaluator

end ComplexSeries
