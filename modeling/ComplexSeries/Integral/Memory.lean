import ComplexSeries.Settings.Basic
import ComplexSeries.Token.Basic

/-! The memory of integrals. A new request is answered from the nearest stored integral of the same
body, index and bindings: as it stands if the request lies near, otherwise with the pieces between
the bounds added at both ends. -/
namespace ComplexSeries.Integral

/-- An integral that is asked for. The bindings hold the values of the variables that the body reads
from outside, in the order of their names. -/
structure Request (R : Type) where
  body : List (Token R)
  index : Char
  bindings : List (Char × Complex R)
  lower : R
  upper : R
deriving DecidableEq, Repr

structure Entry (R : Type) extends Request R where
  value : Complex R
deriving DecidableEq, Repr

/-- Entries in the order in which they were stored. -/
abbrev Memory (R : Type) := List (Entry R)

/-- A part of an interval that is still to be sampled. -/
structure Segment (R : Type) where
  start : R
  stop : R
  pieces : Nat
deriving DecidableEq, Repr

inductive Plan (R : Type) where
  /-- Nothing fits: sample the whole interval and store the value. -/
  | cold (pieces : Nat)
  | known (value : Complex R)
  /-- Add both segments to a known value. -/
  | extend (base : Complex R) (lower upper : Segment R) (store : Bool)
deriving DecidableEq, Repr

variable {R : Type} [Scalar R]

namespace Entry

def width (entry : Entry R) : R := entry.upper - entry.lower

/-- The entry is an integral of the same function. -/
def fits (request : Request R) (entry : Entry R) : Bool :=
  entry.index == request.index && entry.bindings == request.bindings && entry.body == request.body

def lowerGap (request : Request R) (entry : Entry R) : R := Scalar.abs (request.lower - entry.lower)

def upperGap (request : Request R) (entry : Entry R) : R := Scalar.abs (request.upper - entry.upper)

def distance (request : Request R) (entry : Entry R) : R :=
  entry.lowerGap request + entry.upperGap request

end Entry

/-- The nearer of two entries, the earlier if they are as near. -/
def closer (request : Request R) : Option (Entry R) → Entry R → Option (Entry R)
  | none, entry => some entry
  | some best, entry =>
    if Scalar.nearer (entry.distance request) (best.distance request) then some entry else some best

/-- The nearest entry that fits. -/
def closest? (memory : Memory R) (request : Request R) : Option (Entry R) :=
  (memory.filter (·.fits request)).foldl (closer request) none

/-- Samples in proportion to the share of the gap, between one and the limit. -/
def segmentPieces (settings : Settings R) (entry : Entry R) (request : Request R) (gap : R) : Nat :=
  let share := Scalar.ofInt settings.integralSteps * gap / (entry.width * entry.distance request)
  match Scalar.ceiling? share with
  | some pieces => max 1 (min pieces settings.maxDeltaSteps)
  | none => settings.maxDeltaSteps

/-- How to answer a request with `lower < upper`. -/
def plan (settings : Settings R) (memory : Memory R) (request : Request R) : Plan R :=
  match closest? memory request with
  | none => .cold settings.integralSteps
  | some entry =>
    let distance := entry.distance request
    if distance < entry.width then .known entry.value
    else
      .extend entry.value
        ⟨request.lower, entry.lower, segmentPieces settings entry request (entry.lowerGap request)⟩
        ⟨entry.upper, request.upper, segmentPieces settings entry request (entry.upperGap request)⟩
        (decide (entry.width < distance))

end ComplexSeries.Integral
