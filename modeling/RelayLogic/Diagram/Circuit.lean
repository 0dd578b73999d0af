import RelayLogic.Circuit.Build
import RelayLogic.Circuit.Validity
import RelayLogic.Diagram.Basic

/-!
From diagrams to circuits: blocks become elements with their pins, names of blocks, tags and
points are resolved, and the result is checked.
-/

namespace RelayLogic.Diagram

inductive BlockKind
  | signal
  | gate (kind : GateKind)
  | timer (kind : TimerKind)
  | pin
  deriving DecidableEq, Repr

def BlockKind.ofName? (text : String) : Option BlockKind :=
  match text.map Char.toUpper with
  | "SIGNAL" => some .signal
  | "AND" => some (.gate .and)
  | "OR" => some (.gate .or)
  | "TIMER-ON" => some (.timer .on)
  | "TIMER-OFF" => some (.timer .off)
  | "TIMER-PULSE" => some (.timer .pulse)
  | "PIN" => some .pin
  | _ => none

abbrev Names := List (String × ElementId)

/-- The delay of a timer: its number, otherwise its parameter of that name. -/
def BlockDecl.delay? (block : BlockDecl) : Option Float :=
  block.value.or (block.parameters.lookup "delay")

def BlockDecl.resolveTag (block : BlockDecl) (tags : Names) : Build (Option ElementId) :=
  match block.tag with
  | none => return none
  | some name =>
    match tags.lookup name with
    | some tag => return some tag
    | none => throw (.undefinedTag name block.name)

def addBlock (context : ElementId) (tags : Names) (block : BlockDecl) : Build ElementId :=
  match BlockKind.ofName? block.kind with
  | none => throw (.unknownBlockKind block.kind block.line)
  | some .signal => do
    let tag ← block.resolveTag tags
    Build.addSignal context block.name tag
  | some (.gate kind) => Build.addGate context kind block.name
  | some (.timer kind) =>
    match block.delay? with
    | some delay => Build.addTimer context kind block.name (.ofFloat delay)
    | none => throw (.invalidBlock block.name block.line .missingDelay)
  | some .pin => Build.addPin context block.name

def pointIndex? (kind : Kind) (point : String) : Option Nat :=
  if kind.isSignal then (SignalPoint.ofName? point).map (·.index)
  else if kind.isLogic then (GatePoint.ofName? point).map (·.index)
  else none

def pinAt? (circuit : Circuit) (id : ElementId) (point : Option String) : Option ElementId := do
  let element ← circuit.get? id
  match point with
  | none => if element.kind.isPin then some id else none
  | some name => (circuit.pinsOf id)[← pointIndex? element.kind name]?

def resolvePoint (blocks : Names) (ref : PointRef) (line : Nat) : Build ElementId :=
  Build.ask fun circuit =>
    match (blocks.lookup ref.block).bind (pinAt? circuit · ref.point) with
    | some pin => .ok pin
    | none => .error (.undefinedPoint ref.label line)

def addTags : List TagDecl → Names → Build Names
  | [], names => return names
  | tag :: rest, names => do
    if (names.lookup tag.name).isSome then throw (.duplicateTag tag.name)
    let id ← Build.addTag tag.name tag.initial
    Build.setProperties id tag.properties
    Build.setBlock id ⟨tag.name, tag.line⟩
    addTags rest (names ++ [(tag.name, id)])

def addBlocks (context : ElementId) (tags : Names) : List BlockDecl → Names → Build Names
  | [], names => return names
  | block :: rest, names => do
    if (names.lookup block.name).isSome then throw (.duplicateBlock block.name)
    let id ← addBlock context tags block
    Build.setBlock id ⟨block.name, block.line⟩
    addBlocks context tags rest (names ++ [(block.name, id)])

def wireBlock : String := "WIRE"

def addWire (context : ElementId) (blocks : Names) (wire : WireDecl) : Build Unit := do
  let start ← resolvePoint blocks wire.start wire.line
  let stop ← resolvePoint blocks wire.stop wire.line
  let id ← Build.addWire context start stop wire.start.inverted wire.stop.inverted
  Build.setBlock id ⟨wireBlock, wire.line⟩

def ensureProject (name : String) (projects : Names) : Build (ElementId × Names) := do
  match projects.lookup name with
  | some id => return (id, projects)
  | none =>
    let id ← Build.addProject name
    return (id, projects ++ [(name, id)])

def addContexts (tags : Names) : List ContextDecl → Names → Build Unit
  | [], _ => return ()
  | decl :: rest, projects => do
    let (project, projects) ← ensureProject decl.project projects
    let context ← Build.addContext project decl.name
    let blocks ← addBlocks context tags decl.blocks []
    decl.wires.forM (addWire context blocks)
    addContexts tags rest projects

def build (diagram : Diagram) : Build Unit := do
  let tags ← addTags diagram.tags []
  addContexts tags diagram.contexts []

def toCircuit (diagram : Diagram) : Except Error Circuit := do
  let ((), circuit) ← diagram.build.run (.empty (diagram.solution.getD defaultSolution))
  circuit.validate
  return circuit

end RelayLogic.Diagram
