import RelayLogic.Proofs.Encoding
import RelayLogic.Proofs.Clearing
import RelayLogic.Proofs.Following

/-!
Evaluators beside inference. Compilation has the pins of each mapped signal evaluated by its tag.
They are pins of a signal without that, so inference gives the same directions.
-/

namespace RelayLogic

namespace Circuit

variable {circuit : Circuit} {evaluator : ElementId → Option ElementId}

def evaluatedBy (circuit : Circuit) (evaluator : ElementId → Option ElementId) : Circuit :=
  ⟨circuit.elements.mapIdx fun id element => { element with evaluator := evaluator id }⟩

theorem get?_evaluatedBy (circuit : Circuit) (evaluator : ElementId → Option ElementId)
    (id : ElementId) : (circuit.evaluatedBy evaluator).get? id =
      (circuit.get? id).map fun element => { element with evaluator := evaluator id } := by
  simp [evaluatedBy, get?]

@[simp] theorem size_evaluatedBy : (circuit.evaluatedBy evaluator).size = circuit.size := by
  simp [evaluatedBy, size]

@[simp] theorem isPin_evaluatedBy : (circuit.evaluatedBy evaluator).isPin = circuit.isPin := by
  funext id
  simp only [isPin, get?_evaluatedBy]
  cases circuit.get? id <;> rfl

@[simp] theorem direction_evaluatedBy :
    (circuit.evaluatedBy evaluator).direction = circuit.direction := by
  funext id
  simp only [direction, get?_evaluatedBy]
  cases circuit.get? id with
  | none => rfl
  | some element =>
      obtain ⟨name, kind, owner, children, _, block⟩ := element
      cases kind <;> rfl

@[simp] theorem owner_evaluatedBy : (circuit.evaluatedBy evaluator).owner = circuit.owner := by
  funext id
  simp only [owner, get?_evaluatedBy]
  cases circuit.get? id <;> rfl

@[simp] theorem pinsOf_evaluatedBy : (circuit.evaluatedBy evaluator).pinsOf = circuit.pinsOf := by
  funext id
  simp only [pinsOf, children, get?_evaluatedBy, isPin_evaluatedBy]
  cases circuit.get? id <;> rfl

@[simp] theorem isRelay_evaluatedBy :
    (circuit.evaluatedBy evaluator).isRelay = circuit.isRelay := by
  funext id
  simp only [isRelay, isPin_evaluatedBy, owner_evaluatedBy]
  cases circuit.owner id with
  | none => rfl
  | some owner =>
      simp only [Option.bind_some, get?_evaluatedBy]
      cases circuit.get? owner <;> rfl

@[simp] theorem endpoints_evaluatedBy :
    (circuit.evaluatedBy evaluator).endpoints = circuit.endpoints := by
  funext adjacency root
  simp only [endpoints, isRelay_evaluatedBy]

@[simp] theorem isSignalOrTag_evaluatedBy :
    (circuit.evaluatedBy evaluator).isSignalOrTag = circuit.isSignalOrTag := by
  funext id
  simp only [isSignalOrTag, get?_evaluatedBy]
  cases circuit.get? id <;> rfl

theorem collect_evaluatedBy {view : Element → Option α} (same : ∀ element evaluator,
      view { element with evaluator := evaluator } = view element) :
    (circuit.evaluatedBy evaluator).collect view = circuit.collect view := by
  have each : ∀ id, ((circuit.evaluatedBy evaluator).get? id).bind view =
      (circuit.get? id).bind view := by
    intro id
    rw [get?_evaluatedBy]
    cases circuit.get? id with
    | none => rfl
    | some element => exact same element _
  simp only [collect, ids, size_evaluatedBy, each]

@[simp] theorem adjacency_evaluatedBy :
    (circuit.evaluatedBy evaluator).adjacency = circuit.adjacency := by
  rw [adjacency, wires, collect_evaluatedBy fun _ _ => rfl]
  rfl

theorem setDirection_evaluatedBy (id : ElementId) (direction : Direction) :
    (circuit.evaluatedBy evaluator).setDirection id direction =
      (circuit.setDirection id direction).evaluatedBy evaluator := by
  apply ext_get?
  intro other
  simp only [get?_setDirection, get?_evaluatedBy]
  split
  · cases circuit.get? other with
    | none => rfl
    | some element =>
        obtain ⟨name, kind, owner, children, _, block⟩ := element
        cases kind <;> rfl
  · rfl

theorem Alike.evaluatedBy {other : Circuit} (alike : circuit.Alike other) :
    (circuit.evaluatedBy evaluator).Alike (other.evaluatedBy evaluator) := by
  have swap : ∀ circuit : Circuit,
      (circuit.evaluatedBy evaluator).undirected = circuit.undirected.evaluatedBy evaluator := by
    intro circuit
    apply ext_get?
    intro id
    simp only [get?_undirected, get?_evaluatedBy, Option.map_map]
    congr 1
    funext element
    obtain ⟨name, kind, owner, children, _, block⟩ := element
    cases kind <;> rfl
  rw [Alike, swap, swap, alike]

end Circuit

namespace Inference

variable {adjacency : Adjacency} {inference : Inference}
  {evaluator : ElementId → Option ElementId}

def evaluatedBy (inference : Inference) (evaluator : ElementId → Option ElementId) : Inference :=
  { inference with circuit := inference.circuit.evaluatedBy evaluator }

theorem set_evaluatedBy (id : ElementId) (direction : Direction) :
    (inference.evaluatedBy evaluator).set id direction =
      (inference.set id direction).evaluatedBy evaluator := by
  simp only [set, evaluatedBy, Circuit.setDirection_evaluatedBy, Circuit.isPin_evaluatedBy]

theorem addInput_evaluatedBy (output sibling : ElementId) :
    (inference.evaluatedBy evaluator).addInput adjacency output sibling =
      (inference.addInput adjacency output sibling).evaluatedBy evaluator := by
  have same : (inference.evaluatedBy evaluator).circuit.direction = inference.circuit.direction :=
    Circuit.direction_evaluatedBy
  simp only [addInput, same, set_evaluatedBy]
  split
  · rfl
  · split <;> rfl

theorem alike_addInput (output sibling : ElementId) :
    (inference.addInput adjacency output sibling).circuit.Alike inference.circuit := by
  unfold addInput
  split
  · rfl
  · split <;> exact Circuit.undirected_setDirection _ _ _

theorem alike_orient (reached : ElementId) :
    (inference.orient adjacency reached).circuit.Alike inference.circuit := by
  have directed : (inference.set reached .output).circuit.Alike inference.circuit :=
    Circuit.undirected_setDirection _ _ _
  unfold orient
  split
  · simp only
    split
    · exact List.foldlRecOn (motive := fun made : Inference => made.circuit.Alike inference.circuit) _ _
        directed fun _ alike sibling _ => (alike_addInput reached sibling).trans alike
    · exact directed
  · rfl

/-- Evaluators by which no other pins than before are pins of signals. -/
def Heedless (evaluator : ElementId → Option ElementId) (circuit : Circuit) : Prop :=
  (circuit.evaluatedBy evaluator).isSignalPin = circuit.isSignalPin

theorem Heedless.alike {circuit other : Circuit} (heedless : Heedless evaluator circuit)
    (alike : other.Alike circuit) : Heedless evaluator other := by
  rw [Heedless, alike.evaluatedBy.isSignalPin, alike.isSignalPin]
  exact heedless

theorem orient_evaluatedBy (heedless : Heedless evaluator inference.circuit)
    (reached : ElementId) :
    (inference.evaluatedBy evaluator).orient adjacency reached =
      (inference.orient adjacency reached).evaluatedBy evaluator := by
  have opened : isOpen (inference.evaluatedBy evaluator).circuit reached =
      isOpen inference.circuit reached := by
    simp only [isOpen, evaluatedBy, Circuit.direction_evaluatedBy]
    rw [heedless]
  have each : ∀ (siblings : List ElementId) (start : Inference),
      siblings.foldl (addInput adjacency reached) (start.evaluatedBy evaluator) =
        (siblings.foldl (addInput adjacency reached) start).evaluatedBy evaluator := by
    intro siblings
    induction siblings with
    | nil => exact fun _ => rfl
    | cons sibling siblings ih =>
        intro start
        rw [List.foldl_cons, List.foldl_cons, addInput_evaluatedBy, ih]
  have owner : ((inference.set reached .output).evaluatedBy evaluator).circuit.owner =
      (inference.set reached .output).circuit.owner := Circuit.owner_evaluatedBy
  have pinsOf : ((inference.set reached .output).evaluatedBy evaluator).circuit.pinsOf =
      (inference.set reached .output).circuit.pinsOf := Circuit.pinsOf_evaluatedBy
  simp only [orient, opened, set_evaluatedBy, owner, pinsOf]
  split
  · split
    · exact each _ _
    · rfl
  · rfl

theorem foldl_orient_evaluatedBy (heedless : Heedless evaluator inference.circuit)
    (endpoints : List ElementId) :
    endpoints.foldl (orient adjacency) (inference.evaluatedBy evaluator) =
        (endpoints.foldl (orient adjacency) inference).evaluatedBy evaluator ∧
      (endpoints.foldl (orient adjacency) inference).circuit.Alike inference.circuit := by
  induction endpoints generalizing inference with
  | nil => exact ⟨rfl, rfl⟩
  | cons reached endpoints ih =>
      have alike : (inference.orient adjacency reached).circuit.Alike inference.circuit :=
        alike_orient reached
      rw [List.foldl_cons, List.foldl_cons, orient_evaluatedBy heedless]
      obtain ⟨same, kept⟩ := ih (heedless.alike alike)
      exact ⟨same, kept.trans alike⟩

theorem run_evaluatedBy (heedless : Heedless evaluator inference.circuit) (fuel : Nat) :
    (inference.evaluatedBy evaluator).run adjacency fuel =
      (inference.run adjacency fuel).evaluatedBy evaluator := by
  induction fuel generalizing inference with
  | zero => rfl
  | succ fuel ih =>
      obtain ⟨circuit, queue, changed⟩ := inference
      cases queue with
      | nil => rfl
      | cons pin queue =>
          let rest : Inference := ⟨circuit, queue, changed⟩
          have rest_heedless : Heedless evaluator rest.circuit := heedless
          obtain ⟨same, alike⟩ := foldl_orient_evaluatedBy rest_heedless
            (circuit.endpoints adjacency pin)
          simp only [evaluatedBy, Circuit.endpoints_evaluatedBy, run, rest] at same ⊢
          rw [same]
          exact ih (heedless.alike alike)

end Inference

namespace Circuit

variable {circuit : Circuit} {evaluator : ElementId → Option ElementId}

theorem resolveDirections_evaluatedBy (heedless : Inference.Heedless evaluator circuit)
    (adjacency : Adjacency) :
    ((circuit.evaluatedBy evaluator).resolveDirections adjacency).1 =
      (circuit.resolveDirections adjacency).1.evaluatedBy evaluator := by
  have directed : (circuit.evaluatedBy evaluator).pinsDirected .input =
      circuit.pinsDirected .input := by
    simp only [pinsDirected, ids, size_evaluatedBy, isPin_evaluatedBy, direction_evaluatedBy]
  simp only [resolveDirections, directed, size_evaluatedBy]
  let start : Inference := ⟨circuit, circuit.pinsDirected .input, 0⟩
  have start_heedless : Inference.Heedless evaluator start.circuit := heedless
  exact congrArg Inference.circuit (Inference.run_evaluatedBy start_heedless _)

def mappedTag (circuit : Circuit) (pin : ElementId) : Option ElementId :=
  (circuit.owner pin).bind circuit.tagOf

def mapSignal (mapped : Circuit) (entry : ElementId × Option ElementId) : Circuit :=
  match entry.2 with
  | none => mapped
  | some tag =>
    (mapped.pinsOf entry.1).foldl
      (fun mapped pin => mapped.update pin fun element => { element with evaluator := some tag })
      mapped

theorem update_evaluatedBy (pin tag : ElementId) :
    ((circuit.evaluatedBy evaluator).update pin fun element =>
        { element with evaluator := some tag }) =
      circuit.evaluatedBy fun id => if id = pin then some tag else evaluator id := by
  apply ext_get?
  intro id
  simp only [get?_update, get?_evaluatedBy]
  split
  · cases circuit.get? id <;> rfl
  · rfl

theorem foldl_update_evaluatedBy (pins : List ElementId) (tag : ElementId) :
    pins.foldl (fun mapped pin => mapped.update pin fun element =>
        { element with evaluator := some tag }) (circuit.evaluatedBy evaluator) =
      circuit.evaluatedBy fun id => if id ∈ pins then some tag else evaluator id := by
  induction pins generalizing evaluator with
  | nil => simp
  | cons pin pins ih =>
      rw [List.foldl_cons, update_evaluatedBy, ih]
      congr 1
      funext id
      by_cases first : id = pin
      · simp [first]
      · simp [first]

theorem mem_signals {id : ElementId} {tag : Option ElementId} :
    (id, tag) ∈ circuit.signals ↔
      ∃ element, circuit.get? id = some element ∧ element.kind = .signal tag := by
  rw [signals, mem_collect]
  refine exists_congr fun element => and_congr_right fun _ => ?_
  cases element.kind <;> simp

theorem evaluatedBy_none (plain : ∀ id element, circuit.get? id = some element →
      element.evaluator = none) : circuit.evaluatedBy (fun _ => none) = circuit := by
  apply ext_get?
  intro id
  rw [get?_evaluatedBy]
  cases held : circuit.get? id with
  | none => rfl
  | some element =>
      have noEvaluator := plain id element held
      obtain ⟨name, kind, owner, children, _, block⟩ := element
      simp only at noEvaluator
      subst noEvaluator
      rfl

theorem isPin_of_owns (owner kind : Kind) (isSignal : owner.isSignal) (owns : owner.Owns kind) :
    kind.isPin := by
  cases owner <;> cases kind <;>
    first
    | rfl
    | simp [Kind.Owns, Kind.isContainer, Kind.isSignal] at isSignal owns

def Pinned (circuit : Circuit) : Prop :=
  ∀ signal pin, circuit.IsSignal signal → circuit.owner pin = some signal → circuit.isPin pin

namespace Tree

section Belonging

variable {belongs : Kind → Kind → Prop} (tree : circuit.Tree belongs)

include tree

theorem pinned (pins : ∀ owner kind, owner.isSignal → belongs owner kind → kind.isPin) :
    circuit.Pinned := by
  rintro signal pin ⟨container, found, isSignal⟩ owned
  obtain ⟨element, held, _⟩ := Option.bind_eq_some_iff.mp owned
  have notRoot : pin ≠ solution := by
    rintro rfl
    rw [tree.owner_solution] at owned
    contradiction
  obtain ⟨owner, other, ownedBy, otherHeld, _, belonging⟩ := tree.owned pin element held notRoot
  have same : owner = signal := by
    simpa only [Circuit.owner, held, Option.bind_some, ownedBy, Option.some.injEq] using owned
  rw [same, found] at otherHeld
  rw [← Option.some.inj otherHeld] at belonging
  simpa only [isPin, held] using pins _ _ isSignal belonging

variable (pinned : circuit.Pinned)

include pinned

theorem mappedTag_eq_some {pin tag : ElementId} : circuit.mappedTag pin = some tag ↔
    ∃ signal, (signal, some tag) ∈ circuit.signals ∧ pin ∈ circuit.pinsOf signal := by
  simp only [mappedTag, Option.bind_eq_some_iff, tagOf_eq_some, mem_signals, tree.mem_pinsOf]
  constructor
  · rintro ⟨signal, owned, container, found, isSignal⟩
    have owns : circuit.IsSignal signal := ⟨container, found, by rw [isSignal]; rfl⟩
    exact ⟨signal, ⟨container, found, isSignal⟩, pinned signal pin owns owned, owned⟩
  · rintro ⟨signal, ⟨container, found, isSignal⟩, _, owned⟩
    exact ⟨signal, owned, container, found, isSignal⟩

theorem foldl_mapSignal {signals : List (ElementId × Option ElementId)}
    (within : signals ⊆ circuit.signals) :
    signals.foldl mapSignal (circuit.evaluatedBy evaluator) = circuit.evaluatedBy fun pin =>
      if ∃ entry ∈ signals, entry.2.isSome ∧ pin ∈ circuit.pinsOf entry.1 then
        circuit.mappedTag pin
      else evaluator pin := by
  induction signals generalizing evaluator with
  | nil => simp
  | cons entry signals ih =>
      obtain ⟨first, rest⟩ := List.cons_subset.mp within
      obtain ⟨signal, tag⟩ := entry
      cases tag with
      | none =>
          simp only [List.foldl_cons, mapSignal, ih rest, List.mem_cons, exists_eq_or_imp,
            Option.isSome_none, Bool.false_eq_true, false_and, false_or]
      | some tag =>
          simp only [List.foldl_cons, mapSignal, pinsOf_evaluatedBy, foldl_update_evaluatedBy,
            ih rest, List.mem_cons, exists_eq_or_imp, Option.isSome_some, true_and]
          congr 1
          funext pin
          by_cases owned : pin ∈ circuit.pinsOf signal
          · have mapped := (tree.mappedTag_eq_some pinned).mpr ⟨signal, first, owned⟩
            simp only [owned, mapped, ↓reduceIte, true_or, ite_self]
          · simp only [owned, ↓reduceIte, false_or]

theorem mapSignals_eq : circuit.mapSignals = circuit.evaluatedBy circuit.mappedTag := by
  have all : circuit.mapSignals = circuit.evaluatedBy fun pin =>
      if ∃ entry ∈ circuit.signals, entry.2.isSome ∧ pin ∈ circuit.pinsOf entry.1 then
        circuit.mappedTag pin
      else none := by
    rw [← tree.foldl_mapSignal pinned (List.Subset.refl circuit.signals), evaluatedBy_none tree.plain]
    rfl
  rw [all]
  congr 1
  funext pin
  split
  next => rfl
  next unmapped =>
    cases mapped : circuit.mappedTag pin with
    | none => rfl
    | some tag =>
        obtain ⟨signal, listed, owned⟩ := (tree.mappedTag_eq_some pinned).mp mapped
        exact absurd ⟨_, listed, rfl, owned⟩ unmapped

theorem heedless_mappedTag : Inference.Heedless circuit.mappedTag circuit := by
  funext pin
  simp only [isSignalPin, get?_evaluatedBy, isSignalOrTag_evaluatedBy]
  cases held : circuit.get? pin with
  | none => rfl
  | some element =>
      simp only [Option.map_some, tree.plain pin element held, Option.any_none, Bool.or_false]
      cases mapped : circuit.mappedTag pin with
      | none => simp
      | some tag =>
          obtain ⟨signal, listed, owned⟩ := (tree.mappedTag_eq_some pinned).mp mapped
          obtain ⟨container, found, isSignal⟩ := mem_signals.mp listed
          have owner := (tree.mem_pinsOf.mp owned).2
          simp only [Circuit.owner, held, Option.bind_some] at owner
          simp [owner, isSignalOrTag, found, isSignal, Kind.isSignal]

theorem prepared_of_pinned (settled : circuit.Every Element.Settled) :
    circuit.prepared =
      (circuit.resolveDirections circuit.adjacency).1.evaluatedBy circuit.mappedTag := by
  simp only [prepared, clearInferred_of_settled settled, tree.mapSignals_eq pinned,
    adjacency_evaluatedBy]
  exact resolveDirections_evaluatedBy (tree.heedless_mappedTag pinned) _

end Belonging

/-- Compilation finds the directions of the circuit as it was drawn. -/
theorem prepared_eq (tree : circuit.Tree Kind.Owns) (settled : circuit.Every Element.Settled) :
    circuit.prepared =
      (circuit.resolveDirections circuit.adjacency).1.evaluatedBy circuit.mappedTag :=
  tree.prepared_of_pinned (tree.pinned isPin_of_owns) settled

end Tree

end Circuit

end RelayLogic
