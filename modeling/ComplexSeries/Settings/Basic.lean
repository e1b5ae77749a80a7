import ComplexSeries.Scalar

/-! What the user may tune. -/
namespace ComplexSeries

inductive LogLevel where
  | debug | info | warn | error | off
deriving DecidableEq, Repr

namespace LogLevel

def name : LogLevel → String
  | debug => "debug"
  | info => "info"
  | warn => "warn"
  | error => "error"
  | off => "off"

def all : List LogLevel := [debug, info, warn, error, off]

/-- Whether anything is logged at all. -/
def isLoud : LogLevel → Bool
  | off => false
  | _ => true

def ofName? (s : String) : Option LogLevel := all.find? (·.name == s)

end LogLevel

structure Settings (R : Type) where
  /-- Samples of an integral that nothing is known about. -/
  integralSteps : Nat
  /-- Most samples of one end piece of a known integral. -/
  maxDeltaSteps : Nat
  /-- Imaginary parts below it are dropped where a real value is asked for. -/
  realTolerance : R
  /-- Deepest tree that is compiled or evaluated. -/
  maxDepth : Nat
  /-- Whether closed subtrees are evaluated when a formula is compiled. -/
  foldConstants : Bool
  logLevel : Option LogLevel
deriving DecidableEq, Repr

namespace Settings

def defaultDepth : Nat := 512

def standard (R : Type) [Scalar R] : Settings R where
  integralSteps := 1000
  maxDeltaSteps := 100000
  realTolerance := Scalar.ofDecimal ⟨1, -10⟩
  maxDepth := defaultDepth
  foldConstants := true
  logLevel := none

end Settings

end ComplexSeries
