import ComplexSeries.Expr.Scope
import ComplexSeries.Lexeme.Scan
import ComplexSeries.Lexeme.Arguments

/-! Reading a tree from lexemes. Sums bind loosest, then products, both to the left; powers bind
tightest, to the right. The reader of each level is built from that of the level below it, and a
bracket, an argument or an exponent spends one of the levels that are left, so the recursion is on
their number. A chain of operators may be no longer than that number. -/
namespace ComplexSeries.Expr

open Lexeme

variable {R : Type} [Scalar R]

/-- A reader takes the indices in scope and the lexemes that are left. -/
abbrev Reader (R : Type) := List Char → List Lexeme → Except ParseError (Expr R × List Lexeme)

def tooDeep (limit : Nat) : Reader R := fun _ _ => .error (.nestingTooDeep limit)

def expect (l : Lexeme) : List Lexeme → Except ParseError (List Lexeme)
  | [] => .error .unexpectedEnd
  | k :: ls => if k = l then .ok ls else .error (.unexpectedLexeme k)

def isFactorOperator : Operator → Bool
  | .mul | .div => true
  | _ => false

/-- Continues a chain of operators to the right of `lhs`, with `allowance` more at most. -/
def chainFrom (limit : Nat) (selects : Operator → Bool) (operand : Reader R)
    (allowance : Nat) (lhs : Expr R) : Reader R := fun scope ls =>
  match ls with
  | .operator o :: rest =>
    if selects o then
      match allowance with
      | 0 => .error (.nestingTooDeep limit)
      | allowance + 1 => do
        let (rhs, rest) ← operand scope rest
        chainFrom limit selects operand allowance (.binary o lhs rhs) scope rest
    else .ok (lhs, ls)
  | _ => .ok (lhs, ls)

def chain (limit : Nat) (selects : Operator → Bool) (allowance : Nat) (operand : Reader R) :
    Reader R := fun scope ls => do
  let (lhs, rest) ← operand scope ls
  chainFrom limit selects operand allowance lhs scope rest

def sumOf (limit levels : Nat) (power : Reader R) : Reader R :=
  chain limit Operator.isSign levels (chain limit isFactorOperator levels power)

def powerOf (atom exponent : Reader R) : Reader R := fun scope ls => do
  let (base, rest) ← atom scope ls
  match rest with
  | .operator .pow :: rest => do
    let (power, rest) ← exponent scope rest
    return (.binary .pow base power, rest)
  | _ => return (base, rest)

def ofNumber (digits : List Char) : Except ParseError (Expr R) :=
  match Scalar.read? (R := R) digits with
  | none => .error (.malformedNumber digits)
  | some a =>
    if Scalar.isFinite a then .ok (.const (Complex.ofReal a)) else .error (.infiniteLiteral digits)

/-- Outside the scope of an index of that name, `i` is the imaginary unit. -/
def ofLetter (scope : List Char) (c : Char) : Except ParseError (Expr R) :=
  if isBound scope c then .ok (.var c)
  else if c = 'i' then .ok (.const Complex.imaginaryUnit)
  else .error (.unboundVariable c)

/-- What follows the opening bracket of a call, and its arguments, in the right number. -/
def openCall (k : Keyword) : List Lexeme → Except ParseError (List Lexeme × List (List Lexeme))
  | .lparen :: ls =>
    match arguments? ls with
    | none => .error .unbalancedBrackets
    | some args =>
      if args.length = k.arity then .ok (ls, args) else .error (.arityMismatch k args.length)
  | _ => .error (.missingArguments k)

/-- The index of an aggregate is its last argument. -/
def ofIndex (scope : List Char) (args : List (List Lexeme)) : Except ParseError Char :=
  match args.getLast? with
  | some [.letter c] => if isBound scope c then .error (.captureConflict c) else .ok c
  | found => .error (.invalidIndex (found.getD []))

def functionOf (sum : Reader R) (f : Function) : Reader R := fun scope ls => do
  let (ls, _) ← openCall (.function f) ls
  let (arg, ls) ← sum scope ls
  let ls ← expect .rparen ls
  return (.call f arg, ls)

def logOf (sum : Reader R) : Reader R := fun scope ls => do
  let (ls, _) ← openCall .log ls
  let (value, ls) ← sum scope ls
  let ls ← expect .separator ls
  let (base, ls) ← sum scope ls
  let ls ← expect .rparen ls
  return (.log value base, ls)

/-- The index is known before the body is read. -/
def aggregateOf (sum : Reader R) (a : Aggregate) : Reader R := fun scope ls => do
  let (ls, args) ← openCall (.aggregate a) ls
  let (lower, ls) ← sum scope ls
  let ls ← expect .separator ls
  let (upper, ls) ← sum scope ls
  let ls ← expect .separator ls
  let index ← ofIndex scope args
  let (body, ls) ← sum (index :: scope) ls
  let ls ← expect .separator ls
  let ls ← expect (.letter index) ls
  let ls ← expect .rparen ls
  return (.aggregate a lower upper body index, ls)

def atomOf (sum : Reader R) : Reader R := fun scope ls =>
  match ls with
  | [] => .error .unexpectedEnd
  | .number digits :: ls => (ofNumber digits).map (·, ls)
  | .letter c :: ls => (ofLetter scope c).map (·, ls)
  | .keyword (.constant c) :: ls => .ok (.constant c, ls)
  | .keyword (.function f) :: ls => functionOf sum f scope ls
  | .keyword .log :: ls => logOf sum scope ls
  | .keyword (.aggregate a) :: ls => aggregateOf sum a scope ls
  | .lparen :: ls => do
    let (inner, ls) ← sum scope ls
    let ls ← expect .rparen ls
    return (inner, ls)
  | l :: _ => .error (.unexpectedLexeme l)

/-- A power where `levels` are left. -/
def power (limit : Nat) : (levels : Nat) → Reader R
  | 0 => powerOf (atomOf (tooDeep limit)) (tooDeep limit)
  | levels + 1 => powerOf (atomOf (sumOf limit levels (power limit levels))) (power limit levels)

/-- A sum where `levels` are left, one of them for the sum itself. -/
def sum (limit : Nat) : (levels : Nat) → Reader R
  | 0 => tooDeep limit
  | levels + 1 => sumOf limit levels (power limit levels)

/-- The tree of a whole list of lexemes, of depth `limit` at most. -/
def ofLexemes (limit : Nat) (ls : List Lexeme) : Except ParseError (Expr R) :=
  if ls.isEmpty then .error .emptyInput
  else do
    let (e, rest) ← sum limit limit [] ls
    match rest with
    | l :: _ => .error (.unexpectedLexeme l)
    | [] => if limit < e.depth then .error (.nestingTooDeep limit) else .ok e

/-- The tree of a text without blanks. -/
def parse (limit : Nat) (cs : List Char) : Except ParseError (Expr R) := do
  ofLexemes limit (← scan cs)

def read (limit : Nat) (s : String) : Except ParseError (Expr R) := parse limit s.toList

end ComplexSeries.Expr
