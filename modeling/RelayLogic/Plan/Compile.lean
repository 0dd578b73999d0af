import RelayLogic.Schedule
import RelayLogic.Plan.Basic
import RelayLogic.Wiring.Direction
import RelayLogic.Circuit.Build

/-!
From circuits to plans. Tags are evaluated for the signals mapped onto them, directions are
inferred, and every strategy is bound to the outputs that its inputs are connected to.
-/

namespace RelayLogic

namespace Circuit

def mapSignals (circuit : Circuit) : Circuit :=
  circuit.signals.foldl
    (fun mapped (signal, tag) =>
      match tag with
      | none => mapped
      | some tag =>
        (mapped.pinsOf signal).foldl
          (fun mapped pin =>
            mapped.update pin fun element => { element with evaluator := some tag })
          mapped)
    circuit

def strategies (circuit : Circuit) (clock : Clock) : List Strategy :=
  (circuit.collect fun element => Strategy.behaviourOf? clock element.kind).map
    fun (id, behaviour) => ⟨id, behaviour, []⟩

def evaluatedPins (circuit : Circuit) (element : ElementId) : List ElementId :=
  circuit.ids.filter fun id => circuit.isPin id && circuit.evaluatorOf id == some element

def binding? (circuit : Circuit) (slots : List ElementId) (connection : Connection) :
    Option Binding :=
  if circuit.direction connection.pin = .output then
    ((circuit.evaluatorOf connection.pin).bind (slots.idxOf? ·)).map (⟨·, connection.inverted⟩)
  else none

/-- The bindings of an element: the connections of the inputs that it is evaluated for. -/
def bindings (circuit : Circuit) (slots : List ElementId)
    (connections : List (ElementId × List Connection)) (element : ElementId) : List Binding :=
  (circuit.evaluatedPins element).flatMap fun pin =>
    if circuit.direction pin = .input then
      ((connections.lookup pin).getD []).filterMap (circuit.binding? slots)
    else []

def boundTags (circuit : Circuit) (slots : List ElementId) : List BoundTag :=
  circuit.tags.filterMap fun (tag, _) =>
    let signals := circuit.signalsOfTag tag
    match slots.idxOf? tag with
    | some slot =>
      if signals.isEmpty then none
      else
        some ⟨tag, circuit.nameOf tag, slot,
          signals.map fun signal => (signal, (circuit.get? signal).bind (·.block))⟩
    | none => none

def prepared (circuit : Circuit) : Circuit :=
  let mapped := circuit.clearInferred.mapSignals
  (mapped.resolveDirections mapped.adjacency).1

def bindStrategy (circuit : Circuit) (slots : List ElementId)
    (connections : List (ElementId × List Connection)) (strategy : Strategy) : Strategy :=
  if strategy.behaviour = .latch then strategy
  else { strategy with bindings := circuit.bindings slots connections strategy.element }

def planOf (circuit : Circuit) (clock : Clock) : Plan :=
  let unbound := circuit.strategies clock
  let slots := unbound.map (·.element)
  let connections := circuit.inputConnections circuit.adjacency
  let strategies := (unbound.map (circuit.bindStrategy slots connections)).toArray
  let evaluable := strategies.map (·.isEvaluable)
  let schedule := (Dependencies.mk (strategies.map (·.dependencies)) evaluable).schedule
  { strategies := strategies
    evaluable := evaluable
    order := schedule.order
    states := strategies.map (·.initial)
    boundTags := circuit.boundTags slots
    clock := clock
    cyclesDetected := schedule.cycles }

def compile (circuit : Circuit) (resolution : Nat) : Except Error (Plan × Circuit) :=
  if resolution = 0 then .error (.invalidResolution resolution)
  else
    let prepared := circuit.prepared
    .ok (prepared.planOf (.new resolution), prepared)

end Circuit

end RelayLogic
