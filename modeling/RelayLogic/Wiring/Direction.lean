import RelayLogic.Wiring.Reach

/-!
Inference of directions. What an input pin can be reached from must give it a value: the first
undirected pin of a gate, timer or memory that is met this way becomes its output, and the other
undirected pins of that element become inputs, which are followed in their turn.
-/

namespace RelayLogic

namespace Circuit

def setDirection (circuit : Circuit) (id : ElementId) (direction : Direction) : Circuit :=
  circuit.update id fun element =>
    match element.kind with
    | .pin pin => { element with kind := .pin { pin with direction := direction } }
    | _ => element

end Circuit

structure Inference where
  circuit : Circuit
  queue : List ElementId
  changed : Nat
  deriving DecidableEq, Repr

namespace Inference

def isOpen (circuit : Circuit) (id : ElementId) : Bool :=
  circuit.direction id == .undefined && !circuit.isSignalPin id

def set (inference : Inference) (id : ElementId) (direction : Direction) : Inference :=
  { inference with
    circuit := inference.circuit.setDirection id direction
    changed := if inference.circuit.isPin id then inference.changed + 1 else inference.changed }

def addInput (adjacency : Adjacency) (output : ElementId) (inference : Inference)
    (sibling : ElementId) : Inference :=
  if sibling = output || inference.circuit.direction sibling != .undefined then inference
  else
    let directed := inference.set sibling .input
    if adjacency.touches sibling then { directed with queue := directed.queue ++ [sibling] }
    else directed

/-- Makes a reached endpoint an output and its siblings inputs, unless it has a direction. -/
def orient (adjacency : Adjacency) (inference : Inference) (reached : ElementId) : Inference :=
  if isOpen inference.circuit reached then
    let directed := inference.set reached .output
    match directed.circuit.owner reached with
    | some owner =>
      (directed.circuit.pinsOf owner).foldl (addInput adjacency reached) directed
    | none => directed
  else inference

def run (adjacency : Adjacency) : Nat → Inference → Inference
  | 0, inference => inference
  | fuel + 1, inference =>
    match inference.queue with
    | [] => inference
    | pin :: queue =>
      let reached := inference.circuit.endpoints adjacency pin
      run adjacency fuel (reached.foldl (orient adjacency) { inference with queue := queue })

end Inference

namespace Circuit

/--
Infers directions from all input pins on and counts the pins that got one. No pin is queued twice,
so there are no more rounds than elements.
-/
def resolveDirections (circuit : Circuit) (adjacency : Adjacency) : Circuit × Nat :=
  let inference :=
    Inference.run adjacency circuit.size ⟨circuit, circuit.pinsDirected .input, 0⟩
  (inference.circuit, inference.changed)

end Circuit

end RelayLogic
