import RelayLogic.Circuit.Query

/-!
Building circuits. A building call checks its arguments, adds elements at the end of the arena
and answers with the handle of the last one.
-/

namespace RelayLogic

/-- A change of a circuit that can fail. What was changed before a failure stays changed. -/
abbrev Build := EStateM Error Circuit

namespace Build

def run (build : Build α) (circuit : Circuit) : Except Error (α × Circuit) :=
  match build circuit with
  | .ok answer changed => .ok (answer, changed)
  | .error error _ => .error error

def ask (question : Circuit → Except Error α) : Build α := fun circuit =>
  match question circuit with
  | .ok answer => .ok answer circuit
  | .error error => .error error circuit

def expect (id : ElementId) (expected : Expected) (condition : Kind → Bool) : Build Unit :=
  ask fun circuit => do
    if condition (← circuit.element id).kind then pure () else throw (.wrongKind id expected)

def expectPins (pins : List ElementId) : Build Unit :=
  ask fun circuit => pins.forM fun pin => do let _ ← circuit.pin pin

end Build

namespace Circuit

def push (circuit : Circuit) (owner : ElementId) (name : String) (kind : Kind) : Circuit :=
  let grown : Circuit := ⟨circuit.elements.push ⟨name, kind, some owner, [], none, none⟩⟩
  grown.update owner fun element => { element with children := element.children ++ [circuit.size] }

def moveChild (circuit : Circuit) (owner child : ElementId) : Circuit :=
  let detached := match circuit.owner child with
    | some old =>
      circuit.update old fun element =>
        { element with children := element.children.filter (· != child) }
    | none => circuit
  let owned := detached.update child fun element => { element with owner := some owner }
  owned.update owner fun element => { element with children := element.children ++ [child] }

end Circuit

namespace Build

def push (owner : ElementId) (name : String) (kind : Kind) : Build ElementId := fun circuit =>
  .ok circuit.size (circuit.push owner name kind)

def change (id : ElementId) (edit : Element → Element) : Build Unit := do
  let _ ← ask (·.element id)
  modify (·.update id edit)

def changePin (id : ElementId) (edit : Pin → Pin) : Build Unit := do
  let pin ← ask (·.pin id)
  modify (·.update id fun element => { element with kind := .pin (edit pin) })

def adopt (owner : ElementId) (children : List ElementId) : Build Unit := do
  let _ ← ask (·.element owner)
  children.forM fun child => do
    let _ ← ask (·.element child)
    modify (·.moveChild owner child)

def addProject (name : String) : Build ElementId :=
  push Circuit.solution name .project

def addContext (project : ElementId) (name : String) : Build ElementId := do
  expect project .project (· == .project)
  push project name .context

def addTag (name : String) (initial : Tri) : Build ElementId :=
  push Circuit.solution name (.tag initial [])

def addPin (container : ElementId) (name : String) : Build ElementId := do
  expect container .container Kind.isContainer
  push container name (.pin .floating)

def signalFromPins (context : ElementId) (name : String) (tag : Option ElementId)
    (input output : ElementId) : Build ElementId := do
  expect context .container Kind.isContainer
  expectPins [input, output]
  let signal ← push context name (.signal tag)
  adopt signal [input, output]
  changePin input fun _ => .fixed .input
  changePin output fun _ => .fixed .output
  return signal

def addSignal (context : ElementId) (name : String) (tag : Option ElementId) :
    Build ElementId := do
  if let some id := tag then expect id .tag Kind.isTag
  let input ← addPin context (name ++ ".in")
  let output ← addPin context (name ++ ".out")
  signalFromPins context name tag input output

def logicFromPins (context : ElementId) (kind : Kind) (name : String) (pins : List ElementId) :
    Build ElementId := do
  if kind.isLogic = false then throw (.topology (.ownsNoPins kind))
  expect context .container Kind.isContainer
  expectPins pins
  let id ← push context name kind
  adopt id pins
  return id

def addLogic (context : ElementId) (kind : Kind) (name : String) : Build ElementId := do
  let pins ← GatePoint.all.mapM fun point => addPin context (name ++ "." ++ point.name)
  logicFromPins context kind name pins

def addGate (context : ElementId) (kind : GateKind) (name : String) : Build ElementId :=
  addLogic context (.gate kind) name

def addTimer (context : ElementId) (kind : TimerKind) (name : String) (delay : Seconds) :
    Build ElementId :=
  addLogic context (.timer kind delay) name

def addMemory (context : ElementId) (kind : LatchKind) (name : String) : Build ElementId :=
  addLogic context (.memory kind) name

def addWire (context start stop : ElementId) (invertStart invertStop : Bool) :
    Build ElementId := do
  expect context .container Kind.isContainer
  expectPins [start, stop]
  if start = stop then throw (.topology (.wireToItself start))
  let circuit ← get
  push context (circuit.nameOf start ++ "-" ++ circuit.nameOf stop)
    (.wire ⟨start, stop, invertStart, invertStop⟩)

def bindTag (signal tag : ElementId) : Build Unit := do
  expect tag .tag Kind.isTag
  expect signal .signal Kind.isSignal
  modify (·.update signal fun element => { element with kind := .signal (some tag) })

def setBlock (id : ElementId) (block : BlockRef) : Build Unit :=
  change id fun element => { element with block := some block }

def setEvaluator (id : ElementId) (evaluator : Option ElementId) : Build Unit :=
  change id fun element => { element with evaluator := evaluator }

def setProperties (tag : ElementId) (properties : List (String × String)) : Build Unit :=
  change tag fun element =>
    match element.kind with
    | .tag initial _ => { element with kind := .tag initial properties }
    | _ => element

end Build

namespace Circuit

/-- The element as it was before any inference: no evaluator, resettable pins undirected. -/
def clearElement (element : Element) : Element :=
  { element with
    evaluator := none
    kind := match element.kind with
      | .pin pin => .pin (if pin.resets then { pin with direction := .undefined } else pin)
      | kind => kind }

def clearInferred (circuit : Circuit) : Circuit :=
  ⟨circuit.elements.map clearElement⟩

end Circuit

end RelayLogic
