import ComplexSeries.Settings.Basic
import ComplexSeries.Settings.Document

/-! Settings from a document. What it does not mention keeps its standard value. -/
namespace ComplexSeries

inductive SettingsError where
  | unreadable (cause : Settings.DocumentError)
  | invalidValue (title key value : String)
  | unknownKey (title key : String)
  | noFile
  | notText

namespace SettingsError

def message : SettingsError → String
  | unreadable cause => s!"settings document could not be parsed: {cause.message}"
  | invalidValue title key value => s!"setting {title}.{key} has an invalid value '{value}'"
  | unknownKey title key => s!"unknown setting {title}.{key}"
  | noFile => "NotFound"
  | notText => "InvalidData"

end SettingsError

namespace Settings

/-- The settings a document may name. -/
inductive Key where
  | integralSteps | maxDeltaSteps | realTolerance | maxDepth | foldConstants | logLevel
deriving DecidableEq, Repr

def Key.ofNames? (title key : String) : Option Key :=
  match title, key with
  | "integral", "steps" => some integralSteps
  | "integral", "max_delta_steps" => some maxDeltaSteps
  | "evaluation", "real_tolerance" => some realTolerance
  | "evaluation", "max_depth" => some maxDepth
  | "evaluation", "fold_constants" => some foldConstants
  | "logging", "loglevel" => some logLevel
  | _, _ => none

def Value.positive? (v : Value) : Option Nat :=
  v.whole?.bind fun n => if 0 < n then some n.toNat else none

def Value.tolerance? (v : Value) : Option Float :=
  v.real?.filter fun a => 0.0 ≤ a && a.isFinite

/-- The settings with one of them changed, if the value suits it. -/
def assign? (settings : Settings Float) (key : Key) (v : Value) : Option (Settings Float) :=
  match key with
  | .integralSteps => v.positive?.map ({ settings with integralSteps := · })
  | .maxDeltaSteps => v.positive?.map ({ settings with maxDeltaSteps := · })
  | .realTolerance => v.tolerance?.map ({ settings with realTolerance := · })
  | .maxDepth => v.positive?.map ({ settings with maxDepth := · })
  | .foldConstants => v.truth?.map ({ settings with foldConstants := · })
  | .logLevel => (LogLevel.ofName? v.text).map ({ settings with logLevel := some · })

/-- A key must have a single value, be known, and suit its value, in this order. -/
def assignValues (title : String) (settings : Settings Float) (pair : String × List Value) :
    Except SettingsError (Settings Float) :=
  match pair.2 with
  | [v] =>
    match Key.ofNames? title pair.1 with
    | none => .error (.unknownKey title pair.1)
    | some key =>
      match settings.assign? key v with
      | some settings => .ok settings
      | none => .error (.invalidValue title pair.1 v.text)
  | vs => .error (.invalidValue title pair.1 (",".intercalate (vs.map Value.text)))

def assignSection (settings : Settings Float) (part : String × Section) :
    Except SettingsError (Settings Float) :=
  part.2.foldlM (assignValues part.1) settings

def ofDocument (document : Document) : Except SettingsError (Settings Float) :=
  document.foldlM assignSection (standard Float)

def read (s : String) : Except SettingsError (Settings Float) :=
  match Document.read s.toList with
  | .error cause => .error (.unreadable cause)
  | .ok document => ofDocument document

/-- Settings from what a file holds, if there is a file. -/
def ofFile (contents : Option ByteArray) : Except SettingsError (Settings Float) :=
  match contents with
  | none => .error .noFile
  | some bytes =>
    match String.fromUTF8? bytes with
    | none => .error .notText
    | some s => read s

end Settings

end ComplexSeries
