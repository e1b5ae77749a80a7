import ComplexSeries.Decimal.Basic

/-! Reading decimals. A numeral is a row of digits with at most one point in it. A signed numeral
may carry an exponent, and infinity and the missing value have names of their own, in capitals or
not. -/
namespace ComplexSeries.Decimal

def digitValue (c : Char) : Nat := c.toNat - '0'.toNat

def natOf (ds : List Char) : Nat := ds.foldl (fun n c => 10 * n + digitValue c) 0

/-- Digits with at most one point; a digit at least. The rest of the text is not looked at. -/
def readNumeral? (cs : List Char) : Option (Decimal × List Char) :=
  let whole := cs.takeWhile Char.isDigit
  match cs.dropWhile Char.isDigit with
  | '.' :: rest =>
    let fraction := rest.takeWhile Char.isDigit
    if whole.isEmpty && fraction.isEmpty then none
    else some (⟨natOf (whole ++ fraction), -(fraction.length : Int)⟩, rest.dropWhile Char.isDigit)
  | rest => if whole.isEmpty then none else some (⟨natOf whole, 0⟩, rest)

/-- The text less its sign, and whether the sign is a minus. -/
def splitSign : List Char → Bool × List Char
  | '+' :: cs => (false, cs)
  | '-' :: cs => (true, cs)
  | cs => (false, cs)

def natOf? (cs : List Char) : Option Nat :=
  if !cs.isEmpty && cs.all Char.isDigit then some (natOf cs) else none

/-- A whole number with an optional sign. -/
def intOf? (cs : List Char) : Option Int :=
  let (negative, ds) := splitSign cs
  (natOf? ds).map fun n => if negative then -(n : Int) else n

/-- What follows a numeral: nothing, or the power of ten it is multiplied by. -/
def readExponent? : List Char → Option Int
  | [] => some 0
  | c :: cs => if c = 'e' || c = 'E' then intOf? cs else none

inductive Magnitude where
  | missing
  | infinite
  | finite (d : Decimal)
deriving DecidableEq, Repr

def nameOf? (cs : List Char) : Option Magnitude :=
  let name := cs.map Char.toLower
  if name = ['n', 'a', 'n'] then some .missing
  else if name = ['i', 'n', 'f'] || name = ['i', 'n', 'f', 'i', 'n', 'i', 't', 'y'] then
    some .infinite
  else none

/-- The magnitude that a text without sign denotes. -/
def magnitude? (cs : List Char) : Option Magnitude :=
  match nameOf? cs with
  | some m => some m
  | none => do
    let (d, rest) ← readNumeral? cs
    let power ← readExponent? rest
    return .finite ⟨d.digits, d.exponent + power⟩

end ComplexSeries.Decimal
