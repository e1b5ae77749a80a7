import ComplexSeries.Slot

/-! A table of formulas, one slot a row. Setting new rows keeps the slot of every text that the
table already holds. -/
namespace ComplexSeries

open Integral (Memory)

/-- A real abscissa asks for a real value. -/
inductive Abscissa (R : Type) where
  | real (x : R)
  | complex (z : Complex R)

inductive Ordinate (R : Type) where
  | real (y : R)
  | complex (z : Complex R)

structure Table (R : Type) where
  settings : Settings R
  slots : List (Slot R)

variable {R : Type} [Scalar R]

namespace Abscissa

def value : Abscissa R → Complex R
  | real x => Complex.ofReal x
  | complex z => z

/-- A real value is missing where the imaginary part is not negligible. -/
def answer (tolerance : R) (value : Complex R) : Abscissa R → Ordinate R
  | real _ => .real (if Scalar.abs value.im < tolerance then value.re else Scalar.missing)
  | complex _ => .complex value

end Abscissa

namespace Ordinate

def re : Ordinate R → R
  | real y => y
  | complex z => z.re

def isMissing : Ordinate R → Bool
  | real y => Scalar.isMissing y
  | complex z => z.isMissing

end Ordinate

namespace Table

def empty (settings : Settings R) : Table R := ⟨settings, []⟩

/-- The first slot with this text, or a new one. -/
def slotFor (table : Table R) (typed : String) : Slot R :=
  (table.slots.find? (·.typed == typed)).getD (Slot.ofTyped table.settings typed)

def setRows (table : Table R) (rows : List String) : Table R :=
  { table with slots := rows.map table.slotFor }

/-- What the rows were compiled to, in their order. -/
def results (table : Table R) : List (Except ParseError (List (Token R))) :=
  table.slots.map (·.compiled)

def withMemory (table : Table R) (row : Nat) (memory : Memory R) : Table R :=
  { table with slots := table.slots.modify row ({ · with memory }) }

/-- The value of a row at a point. None if there is no such row, if it did not compile, or if its
evaluation failed; what it learnt about integrals is kept. -/
def valueAt (table : Table R) (row : Nat) (x : Abscissa R) (n : Int) :
    Option (Ordinate R) × Table R :=
  match table.slots[row]? with
  | none => (none, table)
  | some slot =>
    match slot.compiled with
    | .error _ => (none, table)
    | .ok ts =>
      match (evaluate table.settings ts x.value (Complex.ofInt n)).run slot.memory with
      | (.ok z, memory) =>
        (some (x.answer table.settings.realTolerance z), table.withMemory row memory)
      | (.error _, memory) => (none, table.withMemory row memory)

end Table

end ComplexSeries
