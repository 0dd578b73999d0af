import RelayLogic.Plan.Compile
import RelayLogic.Netlist.Encode
import RelayLogic.Proofs.Calls

/-!
Clearing takes back what compilation writes into a circuit. Inference only directs pins that have
no direction yet, and pins whose direction is not given up on clearing have one from the start.
-/

namespace RelayLogic

namespace Element

/-- A pin keeps its direction on clearing only if it has one. -/
def Anchored (element : Element) : Prop :=
  ∀ pin, element.kind = .pin pin → pin.resets = false → pin.direction ≠ .undefined

/-- An element into which nothing inferred is written. -/
structure Settled (element : Element) : Prop where
  evaluator : element.evaluator = none
  anchored : element.Anchored
  undirected : ∀ pin, element.kind = .pin pin → pin.resets = true → pin.direction = .undefined

end Element

namespace Circuit

variable {circuit : Circuit}

theorem clearElement_of_settled {element : Element} (settled : element.Settled) :
    clearElement element = element := by
  obtain ⟨name, kind, owner, children, evaluator, block⟩ := element
  obtain ⟨noEvaluator, -, undirected⟩ := settled
  simp only at noEvaluator
  subst noEvaluator
  cases kind with
  | pin pin =>
      cases resets : pin.resets with
      | false => simp [clearElement, resets]
      | true =>
          obtain ⟨direction, _⟩ := pin
          have same : direction = .undefined := undirected _ rfl resets
          simp [clearElement, same]
  | _ => rfl

theorem settled_stable : Build.Stable (Every Element.Settled) where
  push _ _ _ _ floating every := by
    refine every.push _ _ _ ⟨rfl, ?_, ?_⟩ fun _ _ settled =>
      ⟨settled.evaluator, settled.anchored, settled.undirected⟩
    · rintro pin equal resets
      rw [floating pin equal] at resets
      contradiction
    · rintro pin equal _
      rw [floating pin equal]
      rfl
  move _ _ _ every := every.moveChild _ _ fun _ _ _ settled =>
    ⟨settled.evaluator, settled.anchored, settled.undirected⟩
  fix _ _ _ known every := by
    refine every.update _ fun _ settled => ⟨settled.evaluator, ?_, ?_⟩
    · rintro pin ⟨⟩ _
      exact known
    · rintro pin ⟨⟩ resets
      contradiction
  retag _ _ _ every := by
    refine every.update _ fun _ settled => ⟨settled.evaluator, ?_, ?_⟩
    · rintro pin ⟨⟩
    · rintro pin ⟨⟩
  label _ _ _ every := every.update _ fun _ settled =>
    ⟨settled.evaluator, settled.anchored, settled.undirected⟩

theorem settled_empty (name : String) : (empty name).Every Element.Settled := by
  intro id element held
  have bound := get?_lt held
  have first : id = 0 := Nat.lt_one_iff.mp bound
  subst first
  cases held
  exact ⟨rfl, (by rintro pin ⟨⟩), (by rintro pin ⟨⟩)⟩

theorem get?_clearInferred (circuit : Circuit) (id : ElementId) :
    circuit.clearInferred.get? id = (circuit.get? id).map clearElement := by
  simp [clearInferred, get?]

theorem clearInferred_of_settled (every : circuit.Every Element.Settled) :
    circuit.clearInferred = circuit := by
  apply ext_get?
  intro id
  rw [get?_clearInferred]
  cases held : circuit.get? id with
  | none => rfl
  | some element => exact congrArg some (clearElement_of_settled (every id element held))

/-- A circuit from which clearing makes a given one again. -/
structure Inferred (base circuit : Circuit) : Prop where
  cleared : circuit.clearInferred = base
  anchored : circuit.Every Element.Anchored

theorem anchored_clearInferred (anchored : circuit.Every Element.Anchored) :
    circuit.clearInferred.Every Element.Anchored := by
  intro id element held
  rw [get?_clearInferred] at held
  obtain ⟨before, found, rfl⟩ := Option.map_eq_some_iff.mp held
  intro pin equal resets
  simp only [clearElement] at equal
  split at equal
  next old same =>
    cases clears : old.resets with
    | false =>
        simp only [clears, Bool.false_eq_true, ↓reduceIte, Kind.pin.injEq] at equal
        subst equal
        exact anchored id before found old same resets
    | true =>
        simp only [clears, ↓reduceIte, Kind.pin.injEq] at equal
        subst equal
        simp at resets
  next other notPin => exact absurd equal (notPin pin)

@[simp] theorem clearInferred_idem (circuit : Circuit) :
    circuit.clearInferred.clearInferred = circuit.clearInferred := by
  apply ext_get?
  intro id
  simp only [get?_clearInferred, Option.map_map]
  congr 1
  funext element
  simp only [Function.comp, clearElement]
  congr 1
  cases element.kind with
  | pin pin => cases resets : pin.resets <;> simp [resets]
  | _ => rfl

theorem clearInferred_update {id : ElementId} {change : Element → Element}
    (same : ∀ element, circuit.get? id = some element →
      clearElement (change element) = clearElement element) :
    (circuit.update id change).clearInferred = circuit.clearInferred := by
  apply ext_get?
  intro other
  simp only [get?_clearInferred, get?_update]
  split
  next equal =>
    subst equal
    cases held : circuit.get? other with
    | none => rfl
    | some element => exact congrArg some (same element held)
  next => rfl

namespace Inferred

variable {base : Circuit}

theorem update (inferred : Inferred base circuit) {id : ElementId} {change : Element → Element}
    (same : ∀ element, circuit.get? id = some element →
      clearElement (change element) = clearElement element)
    (anchored : ∀ element, element.Anchored → (change element).Anchored) :
    Inferred base (circuit.update id change) :=
  ⟨(clearInferred_update same).trans inferred.cleared, inferred.anchored.update id anchored⟩

/-- Directing a pin that has no direction is taken back: such a pin resets. -/
theorem setDirection (inferred : Inferred base circuit) {id : ElementId} {direction : Direction}
    (known : direction ≠ .undefined) (undirected : circuit.direction id = .undefined) :
    Inferred base (circuit.setDirection id direction) := by
  refine inferred.update ?_ ?_
  · intro element held
    obtain ⟨name, kind, owner, children, evaluator, block⟩ := element
    cases kind with
    | pin pin =>
        rw [direction_of_pin held rfl] at undirected
        have resets : pin.resets = true := by
          by_contra keeps
          exact inferred.anchored id _ held pin rfl (by simpa using keeps) undirected
        simp [clearElement, resets]
    | _ => rfl
  · intro element anchored
    split
    next pin equal =>
      rintro other ⟨⟩ _
      exact known
    next => exact anchored

theorem addInput {inference : Inference} (inferred : Inferred base inference.circuit)
    (adjacency : Adjacency) (output sibling : ElementId) :
    Inferred base (inference.addInput adjacency output sibling).circuit := by
  unfold Inference.addInput
  split
  · exact inferred
  next closed =>
    simp only [Bool.or_eq_true, decide_eq_true_eq, bne_iff_ne, ne_eq, not_or, not_not] at closed
    have directed : Inferred base (inference.circuit.setDirection sibling .input) :=
      inferred.setDirection (by decide) closed.2
    split
    · exact directed
    · exact directed

theorem orient {inference : Inference} (inferred : Inferred base inference.circuit)
    (adjacency : Adjacency) (reached : ElementId) :
    Inferred base (inference.orient adjacency reached).circuit := by
  unfold Inference.orient
  split
  next opened =>
    simp only [Inference.isOpen, Bool.and_eq_true, beq_iff_eq] at opened
    have directed : Inferred base (inference.circuit.setDirection reached .output) :=
      inferred.setDirection (by decide) opened.1
    simp only
    split
    · exact List.foldlRecOn (motive := Inferred base ∘ Inference.circuit) _ _
        directed fun _ inferred sibling _ => inferred.addInput adjacency reached sibling
    · exact directed
  · exact inferred

theorem run {inference : Inference} (inferred : Inferred base inference.circuit)
    (adjacency : Adjacency) (fuel : Nat) :
    Inferred base (inference.run adjacency fuel).circuit := by
  induction fuel generalizing inference with
  | zero => exact inferred
  | succ fuel ih =>
      unfold Inference.run
      split
      · exact inferred
      next pin queue waiting =>
        exact ih (List.foldlRecOn (motive := Inferred base ∘ Inference.circuit) _ _
          inferred fun _ inferred reached _ => inferred.orient adjacency reached)

theorem mapSignals (inferred : Inferred base circuit) : Inferred base circuit.mapSignals := by
  refine List.foldlRecOn _ _ inferred fun circuit inferred (signal, tag) _ => ?_
  cases tag with
  | none => exact inferred
  | some tag =>
      exact List.foldlRecOn _ _ inferred fun circuit inferred pin _ =>
        inferred.update (fun _ _ => rfl) fun _ anchored => anchored

theorem prepared (inferred : Inferred base circuit) : Inferred base circuit.prepared := by
  have cleared : Inferred base circuit.clearInferred :=
    ⟨(clearInferred_idem circuit).trans inferred.cleared, anchored_clearInferred inferred.anchored⟩
  exact cleared.mapSignals.run _ _

end Inferred

theorem prepared_of_compile {resolution : Nat} {plan : Plan} {compiled : Circuit}
    (done : circuit.compile resolution = .ok (plan, compiled)) : compiled = circuit.prepared := by
  unfold compile at done
  split at done
  · contradiction
  · cases done
    rfl

@[simp] theorem clearElement_isPin (element : Element) :
    (clearElement element).kind.isPin = element.kind.isPin := by
  obtain ⟨name, kind, owner, children, evaluator, block⟩ := element
  cases kind <;> rfl

theorem element_clearInferred (circuit : Circuit) (id : ElementId) :
    circuit.clearInferred.element id = (circuit.element id).map clearElement := by
  simp only [element, get?_clearInferred]
  cases circuit.get? id <;> rfl

theorem children_clearInferred (circuit : Circuit) :
    circuit.clearInferred.children = circuit.children := by
  funext id
  simp only [children, get?_clearInferred]
  cases circuit.get? id <;> rfl

theorem isPin_clearInferred (circuit : Circuit) : circuit.clearInferred.isPin = circuit.isPin := by
  funext id
  simp only [isPin, get?_clearInferred]
  cases circuit.get? id <;> simp

theorem pinsOf_clearInferred (circuit : Circuit) :
    circuit.clearInferred.pinsOf = circuit.pinsOf := by
  funext id
  simp only [pinsOf, children_clearInferred, isPin_clearInferred]

theorem memberEntries_clearInferred (circuit : Circuit) :
    circuit.clearInferred.memberEntries = circuit.memberEntries := by
  funext id
  simp only [memberEntries, element_clearInferred, pinsOf_clearInferred]
  cases circuit.element id with
  | error error => rfl
  | ok element =>
      obtain ⟨name, kind, owner, children, evaluator, block⟩ := element
      cases kind <;> rfl

theorem contextEntries_clearInferred (circuit : Circuit) :
    circuit.clearInferred.contextEntries = circuit.contextEntries := by
  funext id
  simp only [contextEntries, element_clearInferred, memberEntries_clearInferred]
  cases circuit.element id with
  | error error => rfl
  | ok element =>
      obtain ⟨name, kind, owner, children, evaluator, block⟩ := element
      cases kind <;> rfl

theorem topEntries_clearInferred (circuit : Circuit) :
    circuit.clearInferred.topEntries = circuit.topEntries := by
  funext id
  simp only [topEntries, element_clearInferred, contextEntries_clearInferred]
  cases circuit.element id with
  | error error => rfl
  | ok element =>
      obtain ⟨name, kind, owner, children, evaluator, block⟩ := element
      cases kind <;> rfl

theorem tagOf_clearInferred (circuit : Circuit) : circuit.clearInferred.tagOf = circuit.tagOf := by
  funext id
  simp only [tagOf, get?_clearInferred]
  cases circuit.get? id with
  | none => rfl
  | some element =>
      obtain ⟨name, kind, owner, children, evaluator, block⟩ := element
      cases kind <;> rfl

theorem encodePartial_clearInferred (circuit : Circuit) :
    circuit.clearInferred.encodePartial = circuit.encodePartial := by
  have bindings : circuit.clearInferred.bindingEntries = circuit.bindingEntries := by
    funext entries
    simp only [bindingEntries, tagOf_clearInferred]
  simp only [encodePartial, entries, children_clearInferred, topEntries_clearInferred, bindings]

theorem encode_clearInferred (circuit : Circuit) :
    circuit.clearInferred.encode = circuit.encode := by
  simp only [encode, encodePartial_clearInferred]

end Circuit

end RelayLogic
