import RelayLogic.Proofs.Bindings
import RelayLogic.Proofs.Cycle
import RelayLogic.Proofs.Settling

/-!
Prepared circuits and their plans. A prepared circuit differs from the circuit that it is made from
in directions and evaluators alone, and its plan has a strategy for each element with a behaviour.
-/

namespace RelayLogic

namespace Circuit

variable {circuit made ready : Circuit} {clock : Clock}

theorem Alike.bind_get? (alike : made.Alike circuit) {view : Element → Option α}
    (same : ∀ element, view element.undirected = view element) (id : ElementId) :
    (made.get? id).bind view = (circuit.get? id).bind view := by
  have each : ∀ circuit : Circuit,
      (circuit.undirected.get? id).bind view = (circuit.get? id).bind view := by
    intro circuit
    rw [get?_undirected]
    cases circuit.get? id with
    | none => rfl
    | some element => exact same element
  rw [← each, alike, each]

def behaviour? (circuit : Circuit) (clock : Clock) (id : ElementId) : Option Behaviour :=
  (circuit.get? id).bind fun element => Strategy.behaviourOf? clock element.kind

/-- What is seen of an element that neither directions nor evaluators are part of. -/
structure Blind (view : Element → Option α) : Prop where
  undirected : ∀ element : Element, view element.undirected = view element
  evaluator : ∀ element evaluator, view { element with evaluator := evaluator } = view element

theorem Blind.clearElement {view : Element → Option α} (blind : Blind view) (element : Element) :
    view (clearElement element) = view element := by
  rw [← blind.undirected (Circuit.clearElement element), ← blind.undirected element,
    ← blind.evaluator element.undirected none]
  obtain ⟨name, kind, owner, children, evaluator, block⟩ := element
  cases kind with
  | pin pin => cases resets : pin.resets <;> simp [Circuit.clearElement, Element.undirected, resets]
  | _ => rfl

theorem Blind.mapSignals {view : Element → Option α} (blind : Blind view) (circuit : Circuit)
    (id : ElementId) : (circuit.mapSignals.get? id).bind view = (circuit.get? id).bind view := by
  refine List.foldlRecOn (motive := fun made : Circuit =>
    (made.get? id).bind view = (circuit.get? id).bind view) _ _ rfl ?_
  rintro made same ⟨signal, _ | tag⟩ _
  · exact same
  · refine List.foldlRecOn (motive := fun made : Circuit =>
      (made.get? id).bind view = (circuit.get? id).bind view) _ _ same fun made same pin _ => ?_
    rw [get?_update]
    split
    · rw [← same]
      cases made.get? id with
      | none => rfl
      | some element => exact blind.evaluator element _
    · exact same

theorem Blind.prepared {view : Element → Option α} (blind : Blind view) (circuit : Circuit)
    (id : ElementId) : (circuit.prepared.get? id).bind view = (circuit.get? id).bind view := by
  have alike := resolveDirections_alike circuit.clearInferred.mapSignals
  have cleared : (circuit.clearInferred.get? id).bind view = (circuit.get? id).bind view := by
    rw [get?_clearInferred]
    cases circuit.get? id with
    | none => rfl
    | some element => exact blind.clearElement element
  exact (alike.bind_get? blind.undirected id).trans ((blind.mapSignals _ id).trans cleared)

theorem Blind.collect_prepared {view : Element → Option α} (blind : Blind view)
    (size : circuit.prepared.size = circuit.size) :
    circuit.prepared.collect view = circuit.collect view := by
  unfold collect ids
  rw [size]
  exact List.filterMap_congr fun id _ => congrArg _ (blind.prepared circuit id)

theorem blind_behaviour (clock : Clock) :
    Blind fun element => Strategy.behaviourOf? clock element.kind where
  undirected element := by
    obtain ⟨name, kind, owner, children, evaluator, block⟩ := element
    cases kind <;> rfl
  evaluator _ _ := rfl

/-- What a prepared circuit tells like the circuit that it is made from, and what it does not. -/
structure Readied (circuit ready : Circuit) : Prop where
  size : ready.size = circuit.size
  isPin : ready.isPin = circuit.isPin
  nameOf : ready.nameOf = circuit.nameOf
  tags : ready.tags = circuit.tags
  behaviour : ready.behaviour? = circuit.behaviour?
  adjacency : ready.adjacency = circuit.adjacency
  direction : ready.direction = (circuit.resolveDirections circuit.adjacency).1.direction
  evaluatorOf : ready.evaluatorOf = circuit.simulated

theorem Tree.readied {belongs : Kind → Kind → Prop} (tree : circuit.Tree belongs)
    (pinned : circuit.Pinned) (settled : circuit.Every Element.Settled) :
    circuit.Readied circuit.prepared := by
  have alike := circuit.resolveDirections_alike
  have prepared := tree.prepared_of_pinned pinned settled
  generalize equal : (circuit.resolveDirections circuit.adjacency).1 = made at alike prepared
  have size : circuit.prepared.size = circuit.size := by rw [prepared, size_evaluatedBy, alike.size]
  constructor
  case size => exact size
  case isPin => rw [prepared, isPin_evaluatedBy, alike.isPin]
  case nameOf =>
    have named : ∀ circuit : Circuit, circuit.nameOf =
        fun id => ((circuit.get? id).bind fun element => some element.name).getD "" := by
      intro circuit
      funext id
      unfold nameOf
      cases circuit.get? id <;> rfl
    rw [named, named circuit]
    refine funext fun id => congrArg (·.getD "") (Blind.prepared ⟨fun element => ?_, ?_⟩ circuit id)
    · obtain ⟨name, kind, owner, children, evaluator, block⟩ := element
      cases kind <;> rfl
    · exact fun _ _ => rfl
  case tags =>
    refine Blind.collect_prepared ⟨fun element => ?_, fun _ _ => rfl⟩ size
    obtain ⟨name, kind, owner, children, evaluator, block⟩ := element
    cases kind <;> rfl
  case behaviour => exact funext fun clock => funext ((blind_behaviour clock).prepared circuit)
  case adjacency => rw [prepared, adjacency_evaluatedBy, alike.adjacency]
  case direction => rw [prepared, direction_evaluatedBy, equal]
  case evaluatorOf => rw [prepared, evaluatorOf_evaluatedBy alike]

def slots (circuit : Circuit) (clock : Clock) : List ElementId :=
  (circuit.strategies clock).map (·.element)

theorem slots_eq (circuit : Circuit) (clock : Clock) :
    circuit.slots clock = circuit.ids.filter fun id => (circuit.behaviour? clock id).isSome := by
  rw [slots, strategies, List.map_map, Circuit.collect, List.map_filterMap,
    ← List.filterMap_eq_filter]
  refine List.filterMap_congr fun id _ => ?_
  unfold behaviour?
  cases found : (circuit.get? id).bind fun element => Strategy.behaviourOf? clock element.kind <;>
    simp [Option.guard, found]

theorem Readied.slots (readied : circuit.Readied ready) (clock : Clock) :
    ready.slots clock = circuit.slots clock := by
  rw [slots_eq, slots_eq, readied.behaviour, ids, readied.size, ids]

theorem nodup_slots (circuit : Circuit) (clock : Clock) : (circuit.slots clock).Nodup := by
  rw [slots_eq]
  exact List.nodup_range.filter _

def bindingsAs (circuit : Circuit) (clock : Clock) (element : ElementId) (behaviour : Behaviour) :
    List Binding :=
  if behaviour = .latch then []
  else circuit.bindings (circuit.slots clock) (circuit.inputConnections circuit.adjacency) element

theorem size_planOf (circuit : Circuit) (clock : Clock) :
    (circuit.planOf clock).strategies.size = (circuit.slots clock).length := by
  simp [planOf, slots]

theorem strategy_planOf {slot : Nat} {element : ElementId}
    (placed : (circuit.slots clock)[slot]? = some element) :
    ∃ behaviour, circuit.behaviour? clock element = some behaviour ∧
      (circuit.planOf clock).strategies[slot]? =
        some ⟨element, behaviour, circuit.bindingsAs clock element behaviour⟩ := by
  rw [slots, List.getElem?_map, Option.map_eq_some_iff] at placed
  obtain ⟨strategy, listed, rfl⟩ := placed
  have member := List.mem_of_getElem? listed
  rw [strategies, List.mem_map] at member
  obtain ⟨⟨id, behaviour⟩, found, rfl⟩ := member
  obtain ⟨held, isHeld, behaves⟩ := mem_collect.mp found
  refine ⟨behaviour, by rw [behaviour?, isHeld, Option.bind_some, behaves], ?_⟩
  simp only [planOf, List.getElem?_toArray, List.getElem?_map, listed, Option.map_some]
  simp only [bindStrategy, bindingsAs, slots]
  split <;> rfl

theorem computes_planOf (circuit : Circuit) (clock : Clock) (slot : Nat) :
    (circuit.planOf clock).computes slot =
      (circuit.planOf clock).strategies[slot]?.any (·.isEvaluable) := by
  have evaluable : (circuit.planOf clock).evaluable =
      (circuit.planOf clock).strategies.map (·.isEvaluable) := rfl
  rw [Plan.computes, evaluable, Array.getD_eq_getD_getElem?, Array.getElem?_map]
  cases (circuit.planOf clock).strategies[slot]? <;> rfl

end Circuit

end RelayLogic
