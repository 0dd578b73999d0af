import RelayLogic.Decimal.Reading

/-!
Reading command lines. An option is written with one dash and a letter or with two dashes and a
name; its value follows in the same word or is the next word. What is no option is the circuit.
-/

namespace RelayLogic.CommandLine

inductive Parameter
  | cycles
  | assignment
  | settings
  | resolution
  | netlist
  | realtime
  deriving DecidableEq, Repr

inductive Switch
  | trace
  | help
  | version
  deriving DecidableEq, Repr

def optionOfLetter? : Char → Option (Parameter ⊕ Switch)
  | 'n' => some (.inl .cycles)
  | 's' => some (.inl .assignment)
  | 'c' => some (.inl .settings)
  | 'r' => some (.inl .resolution)
  | 'h' => some (.inr .help)
  | 'V' => some (.inr .version)
  | _ => none

def optionOfName? : String → Option (Parameter ⊕ Switch)
  | "cycles" => some (.inl .cycles)
  | "set" => some (.inl .assignment)
  | "config" => some (.inl .settings)
  | "resolution-ms" => some (.inl .resolution)
  | "emit-netlist" => some (.inl .netlist)
  | "realtime" => some (.inl .realtime)
  | "trace" => some (.inr .trace)
  | "help" => some (.inr .help)
  | "version" => some (.inr .version)
  | _ => none

inductive Word
  | plain (text : String)
  | endOfOptions
  | switch (switch : Switch)
  | attached (parameter : Parameter) (value : String)
  | detached (parameter : Parameter)
  | unknown
  deriving DecidableEq, Repr

namespace Word

def ofLong (text : List Char) : Word :=
  let name := String.ofList (text.takeWhile (· != '='))
  match optionOfName? name, text.dropWhile (· != '=') with
  | some (.inl parameter), [] => .detached parameter
  | some (.inl parameter), _ :: value => .attached parameter (String.ofList value)
  | some (.inr flag), [] => .switch flag
  | _, _ => .unknown

def ofShort (letter : Char) (rest : List Char) : Word :=
  match optionOfLetter? letter, rest with
  | some (.inl parameter), [] => .detached parameter
  | some (.inl parameter), '=' :: value => .attached parameter (String.ofList value)
  | some (.inl parameter), value => .attached parameter (String.ofList value)
  | some (.inr flag), _ => .switch flag
  | none, _ => .unknown

def ofText (text : String) : Word :=
  match text.toList with
  | ['-', '-'] => .endOfOptions
  | '-' :: '-' :: rest => ofLong rest
  | '-' :: letter :: rest => ofShort letter rest
  | _ => .plain text

end Word

def natural? (text : List Char) : Option Nat :=
  let digits := match text with
    | '+' :: rest => rest
    | _ => text
  if digits.isEmpty || !digits.all Char.isDigit then none else some (Decimal.digitsValue digits)

def cycles? (text : String) : Option Nat := do
  let value ← natural? text.toList
  if value < Nat.pow 2 64 then some value else none

/-- A number of milliseconds, which 32 bits can hold. Zero may be negative. -/
def resolution? (text : String) : Option Nat :=
  match text.toList with
  | '-' :: '+' :: _ => none
  | '-' :: rest => if natural? rest = some 0 then some 0 else none
  | rest => do
    let value ← natural? rest
    if value < Nat.pow 2 32 then some value else none

def path? (text : String) : Option String :=
  if text.isEmpty then none else some text

structure Given where
  circuit : Option String
  cycles : Option Nat
  assignments : List String
  settings : Option String
  resolution : Option Nat
  trace : Bool
  netlist : Option String
  realtime : Option Float

namespace Given

def nothing : Given := ⟨none, none, [], none, none, false, none, none⟩

def once (given value : Option α) : Option (Option α) :=
  match given, value with
  | none, some value => some (some value)
  | _, _ => none

def addCircuit (given : Given) (text : String) : Option Given := do
  let circuit ← once given.circuit (path? text)
  return { given with circuit := circuit }

def addParameter (given : Given) (text : String) : Parameter → Option Given
  | .cycles => do
    let cycles ← once given.cycles (cycles? text)
    return { given with cycles := cycles }
  | .assignment => some { given with assignments := given.assignments ++ [text] }
  | .settings => do
    let settings ← once given.settings (path? text)
    return { given with settings := settings }
  | .resolution => do
    let resolution ← once given.resolution (resolution? text)
    return { given with resolution := resolution }
  | .netlist => do
    let netlist ← once given.netlist (path? text)
    return { given with netlist := netlist }
  | .realtime => do
    let realtime ← once given.realtime (Decimal.read? text.toList)
    return { given with realtime := realtime }

end Given

structure Options where
  circuit : String
  cycles : Nat
  assignments : List String
  settings : Option String
  resolution : Option Nat
  trace : Bool
  netlist : Option String
  realtime : Option Float

inductive Request
  | work (options : Options)
  | help
  | version

def Given.options? (given : Given) : Option Options := do
  let circuit ← given.circuit
  return {
    circuit := circuit
    cycles := given.cycles.getD 10
    assignments := given.assignments
    settings := given.settings
    resolution := given.resolution
    trace := given.trace
    netlist := given.netlist
    realtime := given.realtime }

def Given.addPlain (given : Given) (words : List String) : Option Given :=
  words.foldlM Given.addCircuit given

/-- What the words ask for after what is already given. The first word at fault decides. -/
def Given.request? : Given → List String → Option Request
  | given, [] => given.options?.map .work
  | given, word :: rest =>
    match Word.ofText word with
    | .plain text => do
      let given ← given.addCircuit text
      given.request? rest
    | .endOfOptions => do
      let given ← given.addPlain rest
      given.options?.map .work
    | .switch .help => some .help
    | .switch .version => some .version
    | .switch .trace => if given.trace then none else { given with trace := true }.request? rest
    | .attached parameter value => do
      let given ← given.addParameter value parameter
      given.request? rest
    | .detached parameter =>
      match rest with
      | [] => none
      | value :: rest =>
        match Word.ofText value with
        | .plain text => do
          let given ← given.addParameter text parameter
          given.request? rest
        | _ => none
    | .unknown => none

def Request.ofArguments? (arguments : List String) : Option Request :=
  Given.nothing.request? arguments

end RelayLogic.CommandLine
