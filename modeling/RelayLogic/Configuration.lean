import RelayLogic.Simulator
import RelayLogic.Toml.Document

/-!
Settings in the table `simulator` of a TOML document. What the document leaves out has its default,
and what it says beyond the settings is ignored.
-/

namespace RelayLogic.Settings

/-- A setting that is left out has its default; one that is there must be of the right type. -/
def setting (key : String) (read? : Toml.Value → Option α) (default : α) :
    Option Toml.Value → Except ConfigurationFault α
  | none => .ok default
  | some value =>
    match read? value with
    | some answer => .ok answer
    | none => .error (.wrongType key)

def milliseconds? (bound : Nat) : Toml.Value → Option Nat
  | .integer value => if 0 ≤ value && value < bound then some value.toNat else none
  | _ => none

def resolutionLimit : Nat := Nat.pow 2 32

def periodLimit : Nat := Nat.pow 2 64

def boolean? : Toml.Value → Option Bool
  | .boolean value => some value
  | _ => none

def ofValues (resolution period trace : Option Toml.Value) :
    Except ConfigurationFault Settings := do
  let resolution ←
    setting "resolution_ms" (milliseconds? resolutionLimit) default.resolution resolution
  let period ←
    setting "period_ms" (fun value => (milliseconds? periodLimit value).map some) default.period
      period
  let trace ← setting "trace" boolean? default.trace trace
  return ⟨resolution, period, trace⟩

/--
The settings that a value stands for: a table, or an array that has the values of the settings in
their order. A moment has a field of its own and none of these.
-/
def ofValue : Toml.Value → Except ConfigurationFault Settings
  | .table _ entries =>
    ofValues (entries.lookup "resolution_ms") (entries.lookup "period_ms") (entries.lookup "trace")
  | .array items => ofValues items[0]? items[1]? items[2]?
  | .moment => .ok default
  | _ => .error (.wrongType "simulator")

def ofToml (text : String) : Except ConfigurationFault Settings :=
  match Toml.parse? text with
  | none => .error .notToml
  | some entries =>
    match entries.lookup "simulator" with
    | none => .ok default
    | some value => ofValue value

end RelayLogic.Settings
