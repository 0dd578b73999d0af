import RelayLogic.Error

/-!
Questions about a circuit: its elements by kind, who owns and who evaluates a pin, and what lies
below an element.
-/

namespace RelayLogic.Circuit

def element (circuit : Circuit) (id : ElementId) : Except Error Element :=
  match circuit.get? id with
  | some element => .ok element
  | none => .error (.elementNotFound id)

def pin (circuit : Circuit) (id : ElementId) : Except Error Pin := do
  match (← circuit.element id).kind with
  | .pin pin => return pin
  | _ => throw (.wrongKind id .pin)

def isPin (circuit : Circuit) (id : ElementId) : Bool :=
  match circuit.get? id with
  | some element => element.kind.isPin
  | none => false

def direction (circuit : Circuit) (id : ElementId) : Direction :=
  match circuit.get? id with
  | some { kind := .pin pin, .. } => pin.direction
  | _ => .undefined

def children (circuit : Circuit) (id : ElementId) : List ElementId :=
  match circuit.get? id with
  | some element => element.children
  | none => []

def pinsOf (circuit : Circuit) (id : ElementId) : List ElementId :=
  (circuit.children id).filter circuit.isPin

def owner (circuit : Circuit) (id : ElementId) : Option ElementId :=
  (circuit.get? id).bind (·.owner)

/-- The element that is evaluated for a pin: its evaluator if it has one, otherwise its owner. -/
def evaluatorOf (circuit : Circuit) (id : ElementId) : Option ElementId :=
  match circuit.get? id with
  | some element => element.evaluator.or element.owner
  | none => none

def isRelay (circuit : Circuit) (id : ElementId) : Bool :=
  circuit.isPin id &&
    match (circuit.owner id).bind circuit.get? with
    | some owner => owner.kind.isContainer
    | none => true

def isSignalOrTag (circuit : Circuit) (id : ElementId) : Bool :=
  match circuit.get? id with
  | some element => element.kind.isSignal || element.kind.isTag
  | none => false

def isSignalPin (circuit : Circuit) (id : ElementId) : Bool :=
  match circuit.get? id with
  | some element =>
    element.owner.any circuit.isSignalOrTag || element.evaluator.any circuit.isSignalOrTag
  | none => false

def collect (circuit : Circuit) (view : Element → Option α) : List (ElementId × α) :=
  circuit.ids.filterMap fun id => ((circuit.get? id).bind view).map ((id, ·))

def wires (circuit : Circuit) : List (ElementId × Wire) :=
  circuit.collect fun element =>
    match element.kind with
    | .wire wire => some wire
    | _ => none

def tags (circuit : Circuit) : List (ElementId × Tri) :=
  circuit.collect fun element =>
    match element.kind with
    | .tag initial _ => some initial
    | _ => none

def pins (circuit : Circuit) : List (ElementId × Pin) :=
  circuit.collect fun element =>
    match element.kind with
    | .pin pin => some pin
    | _ => none

def signals (circuit : Circuit) : List (ElementId × Option ElementId) :=
  circuit.collect fun element =>
    match element.kind with
    | .signal tag => some tag
    | _ => none

def contexts (circuit : Circuit) : List ElementId :=
  circuit.ids.filter fun id => (circuit.get? id).any (·.kind == .context)

def nameOf (circuit : Circuit) (id : ElementId) : String :=
  match circuit.get? id with
  | some element => element.name
  | none => ""

def findTag (circuit : Circuit) (name : String) : Option ElementId :=
  (circuit.tags.find? fun (id, _) => circuit.nameOf id == name).map (·.1)

def signalsOfTag (circuit : Circuit) (tag : ElementId) : List ElementId :=
  (circuit.signals.filter fun (_, mapped) => mapped == some tag).map (·.1)

def below (circuit : Circuit) : Nat → ElementId → List ElementId
  | 0, _ => []
  | depth + 1, id => (circuit.children id).flatMap fun child => child :: circuit.below depth child

/-- All elements below an element, depth first. No path down a tree has more steps than elements. -/
def descendants (circuit : Circuit) (id : ElementId) : List ElementId :=
  circuit.below circuit.size id

def pinsDirected (circuit : Circuit) (direction : Direction) : List ElementId :=
  circuit.ids.filter fun id => circuit.isPin id && circuit.direction id == direction

end RelayLogic.Circuit
