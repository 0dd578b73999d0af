import RelayLogic.Wiring.Direction
import RelayLogic.Proofs.Arena
import Mathlib.Data.List.Induction
import Mathlib.Data.List.Nodup

/-!
What giving directions changes, and what it leaves alone: which element owns which pins, and what
wires and relay pins join.
-/

namespace RelayLogic

def Element.undirected (element : Element) : Element :=
  match element.kind with
  | .pin pin => { element with kind := .pin { pin with direction := .undefined } }
  | _ => element

namespace Circuit

variable {circuit : Circuit}

def undirected (circuit : Circuit) : Circuit :=
  ⟨circuit.elements.map Element.undirected⟩

theorem get?_undirected (circuit : Circuit) (id : ElementId) :
    circuit.undirected.get? id = (circuit.get? id).map Element.undirected := by
  simp [undirected, get?]

@[simp] theorem size_undirected (circuit : Circuit) : circuit.undirected.size = circuit.size := by
  simp [undirected, size]

theorem undirected_element (element : Element) :
    element.undirected.owner = element.owner ∧ element.undirected.children = element.children ∧
      element.undirected.evaluator = element.evaluator ∧
      element.undirected.kind.isPin = element.kind.isPin ∧
      element.undirected.kind.isContainer = element.kind.isContainer ∧
      element.undirected.kind.isSignal = element.kind.isSignal ∧
      element.undirected.kind.isTag = element.kind.isTag := by
  obtain ⟨name, kind, owner, children, evaluator, block⟩ := element
  cases kind <;> exact ⟨rfl, rfl, rfl, rfl, rfl, rfl, rfl⟩

theorem isPin_undirected (circuit : Circuit) : circuit.undirected.isPin = circuit.isPin := by
  funext id
  simp only [isPin, get?_undirected]
  cases circuit.get? id with
  | none => rfl
  | some element => exact (undirected_element element).2.2.2.1

theorem owner_undirected (circuit : Circuit) : circuit.undirected.owner = circuit.owner := by
  funext id
  simp only [owner, get?_undirected]
  cases circuit.get? id with
  | none => rfl
  | some element => exact (undirected_element element).1

theorem pinsOf_undirected (circuit : Circuit) : circuit.undirected.pinsOf = circuit.pinsOf := by
  funext id
  simp only [pinsOf, children, get?_undirected, isPin_undirected]
  cases circuit.get? id with
  | none => rfl
  | some element => simp only [Option.map_some, (undirected_element element).2.1]

theorem isRelay_undirected (circuit : Circuit) : circuit.undirected.isRelay = circuit.isRelay := by
  funext id
  simp only [isRelay, isPin_undirected, owner_undirected]
  cases circuit.owner id with
  | none => rfl
  | some owner =>
      simp only [Option.bind_some, get?_undirected]
      cases circuit.get? owner with
      | none => rfl
      | some element => simp only [Option.map_some, (undirected_element element).2.2.2.2.1]

theorem isSignalOrTag_undirected (circuit : Circuit) :
    circuit.undirected.isSignalOrTag = circuit.isSignalOrTag := by
  funext id
  simp only [isSignalOrTag, get?_undirected]
  cases circuit.get? id with
  | none => rfl
  | some element => simp only [Option.map_some, (undirected_element element).2.2.2.2.2]

theorem isSignalPin_undirected (circuit : Circuit) :
    circuit.undirected.isSignalPin = circuit.isSignalPin := by
  funext id
  simp only [isSignalPin, get?_undirected, isSignalOrTag_undirected]
  cases circuit.get? id with
  | none => rfl
  | some element =>
      simp only [Option.map_some, (undirected_element element).1,
        (undirected_element element).2.2.1]

theorem endpoints_undirected (circuit : Circuit) :
    circuit.undirected.endpoints = circuit.endpoints := by
  funext adjacency root
  simp only [endpoints, isRelay_undirected]

/-- Two circuits that differ in nothing but directions. -/
def Alike (circuit other : Circuit) : Prop :=
  circuit.undirected = other.undirected

namespace Alike

variable {other : Circuit}

theorem size (alike : Alike circuit other) : circuit.size = other.size := by
  rw [← size_undirected, alike, size_undirected]

theorem isPin (alike : Alike circuit other) : circuit.isPin = other.isPin := by
  rw [← isPin_undirected, alike, isPin_undirected]

theorem owner (alike : Alike circuit other) : circuit.owner = other.owner := by
  rw [← owner_undirected, alike, owner_undirected]

theorem pinsOf (alike : Alike circuit other) : circuit.pinsOf = other.pinsOf := by
  rw [← pinsOf_undirected, alike, pinsOf_undirected]

theorem isSignalPin (alike : Alike circuit other) : circuit.isSignalPin = other.isSignalPin := by
  rw [← isSignalPin_undirected, alike, isSignalPin_undirected]

theorem endpoints (alike : Alike circuit other) : circuit.endpoints = other.endpoints := by
  rw [← endpoints_undirected, alike, endpoints_undirected]

end Alike

theorem get?_setDirection (circuit : Circuit) (id other : ElementId) (direction : Direction) :
    (circuit.setDirection id direction).get? other =
      if other = id then
        (circuit.get? other).map fun element =>
          match element.kind with
          | .pin pin => { element with kind := .pin { pin with direction := direction } }
          | _ => element
      else circuit.get? other :=
  get?_update circuit id other _

theorem undirected_setDirection (circuit : Circuit) (id : ElementId) (direction : Direction) :
    (circuit.setDirection id direction).undirected = circuit.undirected := by
  apply ext_get?
  intro other
  simp only [get?_undirected, get?_setDirection]
  split
  · rw [Option.map_map]
    congr 1
    funext element
    obtain ⟨name, kind, owner, children, evaluator, block⟩ := element
    cases kind <;> rfl
  · rfl

theorem direction_setDirection (circuit : Circuit) (id other : ElementId) (direction : Direction) :
    (circuit.setDirection id direction).direction other =
      if other = id ∧ circuit.isPin id then direction else circuit.direction other := by
  by_cases same : other = id
  · subst same
    simp only [Circuit.direction, get?_setDirection, Circuit.isPin, ↓reduceIte, true_and]
    cases circuit.get? other with
    | none => rfl
    | some element =>
        obtain ⟨name, kind, owner, children, evaluator, block⟩ := element
        cases kind <;> rfl
  · simp only [same, false_and, ↓reduceIte]
    simp only [Circuit.direction, get?_setDirection, same, ↓reduceIte]

theorem isPin_of_direction {id : ElementId} (directed : circuit.direction id ≠ .undefined) :
    circuit.isPin id := by
  unfold Circuit.direction at directed
  split at directed
  next held => simp only [isPin, held, Kind.isPin]
  next => contradiction

end Circuit

namespace Inference

variable {adjacency : Adjacency} {inference : Inference}

/-- Whether a pin becomes an input beside an output. -/
def becomesInput (inference : Inference) (output pin : ElementId) : Bool :=
  pin != output && inference.circuit.direction pin == .undefined

theorem foldl_addInput (adjacency : Adjacency) (output : ElementId) {siblings : List ElementId}
    (unique : siblings.Nodup) {inference : Inference}
    (arePins : ∀ pin ∈ siblings, inference.circuit.isPin pin) :
    let made := siblings.foldl (addInput adjacency output) inference
    made.circuit.Alike inference.circuit ∧
      (∀ pin, made.circuit.direction pin =
        if pin ∈ siblings ∧ inference.becomesInput output pin then .input
        else inference.circuit.direction pin) ∧
      made.queue = inference.queue ++
        siblings.filter fun pin => inference.becomesInput output pin && adjacency.touches pin := by
  induction siblings using List.reverseRecOn with
  | nil => exact ⟨rfl, by simp, by simp⟩
  | append_singleton siblings sibling ih =>
      obtain ⟨before, _, separate⟩ := List.nodup_append.mp unique
      have absent : sibling ∉ siblings := fun member =>
        separate sibling member sibling (List.mem_singleton_self _) rfl
      obtain ⟨alike, directions, queue⟩ := ih before fun pin member =>
        arePins pin (List.mem_append_left _ member)
      rw [List.foldl_append]
      generalize siblings.foldl (addInput adjacency output) inference = made at *
      simp only [List.foldl_cons, List.foldl_nil]
      have same : made.circuit.direction sibling = inference.circuit.direction sibling := by
        simp [directions, absent]
      have isPin : made.circuit.isPin sibling := by
        rw [alike.isPin]
        exact arePins sibling (by simp)
      unfold addInput
      rw [same]
      split
      next closed =>
        have stays : inference.becomesInput output sibling = false := by
          simp only [Bool.or_eq_true, decide_eq_true_eq, bne_iff_ne, ne_eq] at closed
          simp only [becomesInput, Bool.and_eq_false_iff, bne_eq_false_iff_eq, beq_eq_false_iff_ne]
          exact closed
        refine ⟨alike, fun pin => ?_, ?_⟩
        · rw [directions]
          by_cases last : pin = sibling
          · simp [last, stays]
          · simp [last]
        · simp [queue, stays]
      next opened =>
        have becomes : inference.becomesInput output sibling = true := by
          simp only [Bool.or_eq_true, decide_eq_true_eq, bne_iff_ne, ne_eq, not_or,
            not_not] at opened
          simp only [becomesInput, Bool.and_eq_true, bne_iff_ne, ne_eq, beq_iff_eq]
          exact opened
        have alikeSet : (made.circuit.setDirection sibling .input).Alike inference.circuit :=
          (Circuit.undirected_setDirection _ _ _).trans alike
        have directed : ∀ pin, (made.circuit.setDirection sibling .input).direction pin =
            if pin ∈ siblings ++ [sibling] ∧ inference.becomesInput output pin then .input
            else inference.circuit.direction pin := by
          intro pin
          rw [Circuit.direction_setDirection, directions]
          by_cases last : pin = sibling
          · simp [last, isPin, becomes]
          · simp [last]
        split
        next touched => exact ⟨alikeSet, directed, by simp [set, queue, becomes, touched]⟩
        next untouched => exact ⟨alikeSet, directed, by simp [set, queue, becomes, untouched]⟩

theorem orient_closed {reached : ElementId} (closed : ¬isOpen inference.circuit reached) :
    orient adjacency inference reached = inference := by
  simp only [orient, closed, Bool.false_eq_true, ↓reduceIte]

theorem orient_open (adjacency : Adjacency) {reached owner : ElementId}
    (opened : isOpen inference.circuit reached) (isPin : inference.circuit.isPin reached)
    (owned : inference.circuit.owner reached = some owner)
    (unique : (inference.circuit.pinsOf owner).Nodup) :
    let made := orient adjacency inference reached
    made.circuit.Alike inference.circuit ∧
      (∀ pin, made.circuit.direction pin =
        if pin = reached then .output
        else if pin ∈ inference.circuit.pinsOf owner ∧ inference.circuit.direction pin = .undefined
          then .input
        else inference.circuit.direction pin) ∧
      made.queue = inference.queue ++
        (inference.circuit.pinsOf owner).filter fun pin =>
          inference.becomesInput reached pin && adjacency.touches pin := by
  have alike : (inference.set reached .output).circuit.Alike inference.circuit :=
    Circuit.undirected_setDirection _ _ _
  have unfolded : orient adjacency inference reached =
      (inference.circuit.pinsOf owner).foldl (addInput adjacency reached)
        (inference.set reached .output) := by
    simp only [orient, opened, ↓reduceIte, alike.owner, alike.pinsOf, owned]
  have directed : ∀ pin, (inference.set reached .output).circuit.direction pin =
      if pin = reached then .output else inference.circuit.direction pin := by
    intro pin
    rw [set, Circuit.direction_setDirection]
    simp only [isPin, and_true]
  have becomes : ∀ pin, (inference.set reached .output).becomesInput reached pin =
      inference.becomesInput reached pin := by
    intro pin
    by_cases same : pin = reached
    · simp [becomesInput, same]
    · simp only [becomesInput, directed, same, ↓reduceIte]
  have arePins : ∀ pin ∈ inference.circuit.pinsOf owner,
      (inference.set reached .output).circuit.isPin pin := by
    intro pin member
    rw [alike.isPin]
    exact (List.mem_filter.mp member).2
  obtain ⟨alikeFold, directions, queue⟩ := foldl_addInput adjacency reached unique arePins
  rw [unfolded]
  refine ⟨alikeFold.trans alike, fun pin => ?_, ?_⟩
  · rw [directions, becomes, directed]
    by_cases same : pin = reached
    · simp [becomesInput, same]
    · simp [becomesInput, same]
  · rw [queue]
    simp only [becomes]
    rfl

end Inference

end RelayLogic
