import RelayLogic.Plan.Compile

/-!
Simulators: a circuit and, once it is needed, its plan, stepped one cycle at a time. Whoever edits
the circuit makes the simulator forget the plan.
-/

namespace RelayLogic

/-- The milliseconds of a cycle, those between two ticks if they differ, and whether to report on
compilation. -/
structure Settings where
  resolution : Nat
  period : Option Nat
  trace : Bool
  deriving DecidableEq, Repr

namespace Settings

def default : Settings := ⟨10, none, false⟩

def tickPeriod (settings : Settings) : Nat :=
  settings.period.getD settings.resolution

end Settings

structure StateChange where
  block : Option BlockRef
  signal : ElementId
  tag : ElementId
  value : Tri
  deriving DecidableEq, Repr

structure Simulator where
  circuit : Circuit
  settings : Settings
  plan : Option Plan
  /-- The values of the bound tags that were last reported. -/
  reported : List (ElementId × Tri)
  deriving DecidableEq, Repr

/-- A use of a simulator that can fail. What was changed before a failure stays changed. -/
abbrev Simulation := EStateM Error Simulator

namespace Simulator

def new (circuit : Circuit) (settings : Settings) : Simulator :=
  ⟨circuit, settings, none, []⟩

def reset (simulator : Simulator) : Simulator :=
  { simulator with circuit := simulator.circuit.clearInferred, plan := none, reported := [] }

def cycle (simulator : Simulator) : Nat :=
  match simulator.plan with
  | some plan => plan.clock.cycle
  | none => 0

def tagNamed (simulator : Simulator) (name : String) : Except Error ElementId :=
  match simulator.circuit.findTag name with
  | some tag => .ok tag
  | none => .error (.tagNotFound name)

def tagValue (simulator : Simulator) (name : String) : Except Error Tri := do
  let tag ← simulator.tagNamed name
  match simulator.plan.bind (·.value tag) with
  | some value => return value
  | none => return (simulator.circuit.tags.lookup tag).getD .unknown

end Simulator

namespace Plan

def observed (plan : Plan) : List (ElementId × Tri) :=
  plan.boundTags.map fun bound => (bound.tag, plan.states.getD bound.slot .unknown)

/-- The changes of a bound tag since a report: none, or one for each of its signals. -/
def changesOf (plan : Plan) (reported : List (ElementId × Tri)) (bound : BoundTag) :
    List StateChange :=
  let value := plan.states.getD bound.slot .unknown
  if reported.lookup bound.tag = some value then []
  else bound.signals.map fun (signal, block) => ⟨block, signal, bound.tag, value⟩

def changes (plan : Plan) (reported : List (ElementId × Tri)) : List StateChange :=
  plan.boundTags.flatMap (plan.changesOf reported)

end Plan

namespace Simulation

def compile : Simulation Plan := do
  let simulator ← get
  match simulator.plan with
  | some plan => return plan
  | none =>
    match simulator.circuit.compile simulator.settings.resolution with
    | .error error => throw error
    | .ok (plan, circuit) =>
      set { simulator with circuit := circuit, plan := some plan, reported := [] }
      return plan

def step : Simulation (List StateChange) := do
  let plan := (← compile).evaluate
  let reported := (← get).reported
  modify fun simulator => { simulator with plan := some plan, reported := plan.observed }
  return plan.changes reported

def run : Nat → Simulation (List StateChange)
  | 0 => return []
  | cycles + 1 => do
    let changes ← step
    return changes ++ (← run cycles)

def setElement (element : ElementId) (value : Tri) : Simulation Unit := do
  let plan ← compile
  match plan.setValue element value with
  | .ok plan => modify fun simulator => { simulator with plan := some plan }
  | .error error => throw error

def setTag (name : String) (value : Tri) : Simulation Unit := do
  match (← get).tagNamed name with
  | .ok tag => setElement tag value
  | .error error => throw error

/-- Changes the circuit, of which nothing inferred is left whether the change fails or not. -/
def edit (build : Build α) : Simulation α := fun simulator =>
  let fresh := simulator.reset
  match build fresh.circuit with
  | .ok answer circuit => .ok answer { fresh with circuit := circuit }
  | .error error circuit => .error error { fresh with circuit := circuit }

end Simulation

end RelayLogic
