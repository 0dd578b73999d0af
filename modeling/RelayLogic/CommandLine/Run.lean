import RelayLogic.CommandLine.Duration
import RelayLogic.CommandLine.Host
import RelayLogic.CommandLine.Options
import RelayLogic.CommandLine.Path
import RelayLogic.CommandLine.Usage
import RelayLogic.Configuration
import RelayLogic.Diagram.Parser
import RelayLogic.Diagram.Circuit
import RelayLogic.Netlist.Decode
import RelayLogic.Netlist.Encode
import RelayLogic.Text.Blank
import RelayLogic.Ticker

/-!
Running commands: a circuit is loaded, then either written as a netlist or simulated, with a line
for every change of a tag.
-/

namespace RelayLogic.CommandLine

def circuitOfFile (path : String) (bytes : List UInt8) : Except Error Circuit :=
  if isNetlist path then Netlist.decode bytes
  else
    match Text.decodeUtf8 bytes with
    | .error _ => .error (.unreadableFile path)
    | .ok text => do
      let diagram ← Diagram.parse text
      diagram.toCircuit

def settingsOfFile (path : String) (bytes : Option (List UInt8)) :
    Except ConfigurationFault Settings :=
  match bytes with
  | none => .error (.unreadable path)
  | some bytes =>
    match Text.decodeUtf8 bytes with
    | .error _ => .error (.unreadable path)
    | .ok text => Settings.ofToml text

def assignment (text : String) : Except ConfigurationFault (String × Tri) :=
  let trimmed (part : List Char) := String.ofList (Text.trim part)
  match text.toList.dropWhile (· != '=') with
  | [] => .error (.assignment text)
  | _ :: value =>
    match Tri.ofName? (trimmed value) with
    | some value => .ok (trimmed (text.toList.takeWhile (· != '=')), value)
    | none => .error (.assignment text)

def changeLine (cycle : Nat) (change : StateChange) : String :=
  let number := toString cycle
  let subject := match change.block with
    | some block => block.label
    | none => ElementId.label change.signal
  String.ofList (List.replicate (6 - number.length) ' ') ++ number ++ " " ++ subject ++ " = " ++
    change.value.name ++ "\n"

def changeLines (cycle : Nat) (changes : List StateChange) : String :=
  String.join (changes.map (changeLine cycle))

section

variable {m : Type → Type} [Monad m]

def conclude (outcome : Except Error α) : ExceptT Error m α :=
  ExceptT.mk (pure outcome)

def configure (outcome : Except ConfigurationFault α) : ExceptT Error m α :=
  conclude (outcome.mapError .configuration)

def loadCircuit (host : Host m) (path : String) : ExceptT Error m Circuit := do
  match ← host.readFile path with
  | none => throw (.unreadableFile path)
  | some bytes => conclude (circuitOfFile path bytes)

/-- Writes a netlist. Of a circuit that has none, the file holds as much as can be written. -/
def writeNetlist (host : Host m) (circuit : Circuit) (path : String) : ExceptT Error m Unit := do
  let (bytes, fault) := circuit.encodePartial
  let written ← host.writeFile path bytes
  if !written then throw (.output path)
  match fault with
  | some error => throw error
  | none => return ()

def loadSettings (host : Host m) (options : Options) : ExceptT Error m Settings := do
  let settings ← match options.settings with
    | some path => do
      let bytes ← host.readFile path
      configure (settingsOfFile path bytes)
    | none => pure Settings.default
  return { settings with
    resolution := options.resolution.getD settings.resolution
    trace := settings.trace || options.trace }

def simulated (simulation : Simulation α) (simulator : Simulator) :
    ExceptT Error m (α × Simulator) :=
  match simulation simulator with
  | .ok answer after => return (answer, after)
  | .error error _ => throw error

def assign : List String → Simulator → ExceptT Error m Simulator
  | [], simulator => return simulator
  | text :: rest, simulator => do
    let (tag, value) ← configure (assignment text)
    let (_, simulator) ← simulated (Simulation.setTag tag value) simulator
    assign rest simulator

def runCycles (host : Host m) : Nat → Simulator → ExceptT Error m Unit
  | 0, _ => return ()
  | cycles + 1, simulator => do
    let (changes, simulator) ← simulated Simulation.step simulator
    host.print (changeLines simulator.cycle changes)
    runCycles host cycles simulator

def runTicks (host : Host m) (period : Nat) : Nat → Ticker → m Unit
  | 0, _ => return ()
  | ticks + 1, ticker => do
    host.wait period
    match Ticking.tick ticker with
    | .ok batch ticker =>
      host.print (changeLines batch.cycle batch.changes)
      runTicks host period ticks ticker
    | .error _ ticker => runTicks host period ticks ticker

/-- Runs for a number of seconds, with as many ticks as there are whole periods in them. -/
def runSeconds (host : Host m) (seconds : Float) (simulator : Simulator) :
    ExceptT Error m Unit := do
  let duration ← match nanoseconds? seconds with
    | some duration => pure duration
    | none => throw (.configuration .duration)
  match Ticking.start ⟨simulator, false⟩ with
  | .error error _ => throw error
  | .ok () ticker =>
    let period := simulator.settings.tickPeriod * millisecond
    (runTicks host period (duration / period) ticker : m Unit)
    host.wait (duration % period)

def simulate (host : Host m) (options : Options) (circuit : Circuit) : ExceptT Error m Unit := do
  let settings ← loadSettings host options
  let simulator ← assign options.assignments (.new circuit settings)
  match options.realtime with
  | some seconds => runSeconds host seconds simulator
  | none => runCycles host options.cycles simulator

def work (host : Host m) (options : Options) : ExceptT Error m Unit := do
  let circuit ← loadCircuit host options.circuit
  match options.netlist with
  | some path => writeNetlist host circuit path
  | none => simulate host options circuit

inductive Outcome
  | success
  | failure (error : Error)
  | misuse
  deriving DecidableEq, Repr

def Outcome.code : Outcome → Nat
  | success => 0
  | failure _ => 1
  | misuse => 2

def run (host : Host m) (arguments : List String) : m Outcome := do
  match Request.ofArguments? arguments with
  | none => return .misuse
  | some .help =>
    host.print help
    return .success
  | some .version =>
    host.print version
    return .success
  | some (.work options) =>
    match ← (work host options).run with
    | .ok () => return .success
    | .error error => return .failure error

end

end RelayLogic.CommandLine
