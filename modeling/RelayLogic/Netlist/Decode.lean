import RelayLogic.Circuit.Build
import RelayLogic.Circuit.Validity
import RelayLogic.Netlist.Record

/-!
Reading netlists. A reference is resolved as soon as it is read and must name an earlier record;
elements get names made of their record's number.
-/

namespace RelayLogic.Netlist

/-- The bytes that are left and where they start, where the records end and their count stands, and
the elements of the records before, the latest first. -/
structure Reader where
  rest : List UInt8
  offset : Nat
  bodyEnd : Nat
  elements : List (Nat × ElementId)
  deriving DecidableEq, Repr

abbrev Read := StateT Reader (Except Error)

namespace Read

def bytes (length : Nat) : Read (List UInt8) := do
  let reader ← get
  let taken := reader.rest.take length
  if taken.length < length then throw (.netlist (.truncated reader.offset))
  set { reader with rest := reader.rest.drop length, offset := reader.offset + length }
  return taken

def number (width : Nat) : Read Nat := do
  return ofBytes (← bytes width)

def text : Read String := do
  let length ← number 4
  let reader ← get
  if reader.bodyEnd - reader.offset < length then
    throw (.netlist (.overrun length reader.offset))
  match Text.decodeUtf8 (← bytes length) with
  | .ok text => return text
  | .error error => throw (.netlist (.text error))

def reference (record : Nat) : Read ElementId := do
  let target ← number 4
  match (← get).elements.lookup target with
  | some element => return element
  | none => throw (.unknownReference record target)

def references (record : Nat) : Nat → Read (List ElementId)
  | 0 => return []
  | count + 1 => do
    let first ← reference record
    return first :: (← references record count)

def record (number : Nat) : Command → Read (Record ElementId)
  | .solution => return .solution
  | .project => return .project
  | .context => return .context
  | .pin => return .pin
  | .signal => return .signal (← references number 2)
  | .gate kind => return .gate kind (← references number 4)
  | .timer kind => do
    let pins ← references number 4
    return .timer kind pins ⟨UInt32.ofNat (← Read.number 4)⟩
  | .connect => do
    let start ← reference number
    let stop ← reference number
    let invertStart ← Read.number 1
    let invertStop ← Read.number 1
    return .connect start stop (invertStart != 0) (invertStop != 0)
  | .tag => do
    let name ← text
    let initial ← Read.number 1
    match triOfCode? initial with
    | some initial => return .tag name initial
    | none => throw (.netlist (.initialValue initial))
  | .bindTag => do
    let signal ← reference number
    let tag ← reference number
    return .bindTag signal tag

def declare (number : Nat) (element : ElementId) : Read Unit :=
  modify fun reader => { reader with elements := (number, element) :: reader.elements }

end Read

/-- A circuit as far as it is read, with the project and the context that records land in. -/
structure Assembly where
  circuit : Circuit
  project : Option ElementId
  context : Option ElementId
  deriving DecidableEq, Repr

namespace Assembly

def currentContext (assembly : Assembly) (command : Command) : Except Error ElementId :=
  match assembly.context with
  | some context => .ok context
  | none => .error (.netlist (.outsideContext command.name))

def place (assembly : Assembly) (command : Command) (build : ElementId → Build ElementId) :
    Except Error (Assembly × Option ElementId) := do
  let context ← assembly.currentContext command
  let (id, circuit) ← (build context).run assembly.circuit
  return ({ assembly with circuit := circuit }, some id)

def add (assembly : Assembly) (number : Nat) (record : Record ElementId) :
    Except Error (Assembly × Option ElementId) :=
  let name (kind : String) : String := kind ++ toString number
  match record with
  | .solution => .error (.netlist .secondSolution)
  | .project => do
    let (id, circuit) ← (Build.addProject (name "Project")).run assembly.circuit
    return (⟨circuit, some id, none⟩, some id)
  | .context =>
    match assembly.project with
    | none => .error (.netlist .outsideProject)
    | some project => do
      let (id, circuit) ← (Build.addContext project (name "Context")).run assembly.circuit
      return (⟨circuit, some project, some id⟩, some id)
  | .pin => assembly.place .pin fun context => Build.addPin context (name "P")
  | .signal pins =>
    assembly.place .signal fun context =>
      Build.signalFromPins context (name "S") none (pins.getD 0 0) (pins.getD 1 0)
  | .gate kind pins =>
    assembly.place (.gate kind) fun context =>
      Build.logicFromPins context (.gate kind) (name "G") pins
  | .timer kind pins delay =>
    assembly.place (.timer kind) fun context =>
      Build.logicFromPins context (.timer kind delay) (name "T") pins
  | .connect start stop invertStart invertStop =>
    assembly.place .connect fun context =>
      Build.addWire context start stop invertStart invertStop
  | .tag tagName initial => do
    let (id, circuit) ← (Build.addTag tagName initial).run assembly.circuit
    return ({ assembly with circuit := circuit }, some id)
  | .bindTag signal tag => do
    let ((), circuit) ← (Build.bindTag signal tag).run assembly.circuit
    return ({ assembly with circuit := circuit }, none)

end Assembly

def solutionName : String := "Solution"

namespace Read

/-- Takes one record. The first must open the solution. -/
def step : Option Assembly → Read Assembly
  | assembly? => do
    let at_ := (← get).offset
    let code ← Read.number 2
    let number ← Read.number 4
    match Command.ofCode? code, assembly? with
    | none, _ => throw (.unsupportedCommand code at_)
    | some .solution, none => do
      declare number Circuit.solution
      return ⟨.empty solutionName, none, none⟩
    | some _, none => throw (.netlist .beforeSolution)
    | some command, some assembly => do
      let record ← Read.record number command
      let (grown, element) ← assembly.add number record
      if let some element := element then declare number element
      return grown

def records : Nat → Option Assembly → Read (Option Assembly)
  | 0, assembly => return assembly
  | count + 1, assembly => do
    let grown ← step assembly
    records count (some grown)

end Read

def decode (bytes : List UInt8) : Except Error Circuit := do
  let bodyEnd := bytes.length - 4
  if bytes.length < 4 then throw (.netlist .missingCount)
  let count := ofBytes (bytes.drop bodyEnd)
  let (assembly?, reader) ← (Read.records count none).run ⟨bytes, 0, bodyEnd, []⟩
  if reader.offset ≠ bodyEnd then throw (.netlist (.wrongEnd count reader.offset bodyEnd))
  match assembly? with
  | none => throw (.netlist .noSolution)
  | some assembly =>
    assembly.circuit.validate
    return assembly.circuit

end RelayLogic.Netlist
