import RelayLogic.Proofs.Drawing
import RelayLogic.Proofs.Valid

/-!
What elements own in a tree. In a valid circuit where elements own what they may, a signal owns its
two fixed pins and nothing else, and logic owns four pins that any direction can be inferred for.
-/

namespace RelayLogic.Circuit.Tree

variable {circuit : Circuit}

section

variable {belongs : Kind → Kind → Prop} (tree : circuit.Tree belongs)

include tree

theorem nests {id child : ElementId} (member : child ∈ circuit.children id) :
    ∃ element other, circuit.get? id = some element ∧ circuit.get? child = some other ∧
      belongs element.kind other.kind := by
  have owned := tree.mem_children.mp member
  obtain ⟨other, held, _⟩ := Option.bind_eq_some_iff.mp owned
  have notRoot : child ≠ solution := by
    rintro rfl
    rw [tree.owner_solution] at owned
    contradiction
  obtain ⟨parent, container, parentOwns, containerHeld, _, nests⟩ :=
    tree.owned child other held notRoot
  simp only [owner, held, Option.bind_some, parentOwns, Option.some.injEq] at owned
  exact ⟨container, other, owned ▸ containerHeld, held, nests⟩

theorem nested {id child : ElementId} {element : Element} {kind : Kind}
    (held : circuit.get? id = some element) (isKind : element.kind = kind)
    (member : child ∈ circuit.children id) :
    ∃ other, circuit.get? child = some other ∧ belongs kind other.kind := by
  obtain ⟨container, other, containerHeld, childHeld, nests⟩ := tree.nests member
  rw [held] at containerHeld
  cases containerHeld
  exact ⟨other, childHeld, isKind ▸ nests⟩

theorem owner_nests {id : ElementId} {element : Element} (held : circuit.get? id = some element)
    (notSolution : element.kind ≠ .solution) :
    ∃ owner container, circuit.owner id = some owner ∧ circuit.get? owner = some container ∧
      belongs container.kind element.kind := by
  have notRoot : id ≠ solution := by
    rintro rfl
    obtain ⟨root, rootHeld, isSolution, _⟩ := tree.root
    rw [held] at rootHeld
    exact notSolution (Option.some.inj rootHeld ▸ isSolution)
  obtain ⟨owner, container, owned, containerHeld, _, nests⟩ := tree.owned id element held notRoot
  exact ⟨owner, container, by simp only [Circuit.owner, held, Option.bind_some, owned],
    containerHeld, nests⟩

end

variable (tree : circuit.Tree Kind.Owns)

include tree

theorem owned_pin {id : ElementId} {element : Element} (held : circuit.get? id = some element)
    (owner : element.kind.isSignal ∨ element.kind.isLogic) {child : ElementId}
    (member : child ∈ circuit.children id) : ∃ other point, circuit.get? child = some other ∧
      other.kind = .pin point ∧ element.kind.Owns (.pin point) := by
  obtain ⟨other, childHeld, owns⟩ := tree.nested held rfl member
  cases kind : other.kind with
  | pin point => exact ⟨other, point, childHeld, kind, kind ▸ owns⟩
  | solution =>
      rw [kind] at owns
      exact owns.elim
  | project | tag _ _ | context =>
      rw [kind] at owns
      rw [show element.kind = _ from owns] at owner
      simp [Kind.isSignal, Kind.isLogic] at owner
  | _ =>
      rw [kind] at owns
      have contains : element.kind.isContainer := owns
      cases same : element.kind <;>
        simp [same, Kind.isContainer, Kind.isSignal, Kind.isLogic] at contains owner

theorem pinsOf_eq_children {id : ElementId} {element : Element}
    (held : circuit.get? id = some element) (owner : element.kind.isSignal ∨ element.kind.isLogic) :
    circuit.pinsOf id = circuit.children id := by
  refine List.filter_eq_self.mpr fun child member => ?_
  obtain ⟨other, point, childHeld, isPin, _⟩ := tree.owned_pin held owner member
  simp only [Circuit.isPin, childHeld, isPin, Kind.isPin]

variable (valid : circuit.validate = .ok ()) {id : ElementId} {element : Element}

include valid

theorem signal_pins {tag : Option ElementId} (held : circuit.get? id = some element)
    (isSignal : element.kind = .signal tag) :
    ∃ input output, circuit.children id = [input, output] ∧
      (∃ pin, circuit.get? input = some pin ∧ pin.kind = .pin (.fixed .input)) ∧
        ∃ pin, circuit.get? output = some pin ∧ pin.kind = .pin (.fixed .output) := by
  have owner : element.kind.isSignal ∨ element.kind.isLogic := Or.inl (by rw [isSignal]; rfl)
  have needs := (validate_ok_iff.mp valid id element held).2
  rw [isSignal, HasParts, tree.pinsOf_eq_children held owner] at needs
  have fixed : ∀ (direction : Direction) (child : ElementId), child ∈ circuit.children id →
      circuit.direction child = direction →
        ∃ pin, circuit.get? child = some pin ∧ pin.kind = .pin (.fixed direction) := by
    intro direction child member directed
    obtain ⟨other, point, childHeld, isPin, owns⟩ := tree.owned_pin held owner member
    rw [direction_of_pin childHeld isPin] at directed
    refine ⟨other, childHeld, ?_⟩
    rw [isSignal] at owns
    rcases owns with ⟨_, rfl | rfl⟩ | ⟨contains | isLogic, _⟩
    · rw [isPin, ← directed]
      rfl
    · rw [isPin, ← directed]
      rfl
    · contradiction
    · contradiction
  have arePins := needs.1
  unfold areSignalPins at arePins
  split at arePins
  next input output pins =>
    simp only [Bool.and_eq_true, beq_iff_eq] at arePins
    exact ⟨input, output, pins, fixed _ input (by simp [pins]) arePins.1,
      fixed _ output (by simp [pins]) arePins.2⟩
  next => contradiction

theorem logic_pins (held : circuit.get? id = some element) (logic : element.kind.isLogic) :
    (circuit.children id).length = 4 ∧ ∀ pin ∈ circuit.children id,
      ∃ other, circuit.get? pin = some other ∧ other.kind = .pin .floating := by
  have owner : element.kind.isSignal ∨ element.kind.isLogic := Or.inr logic
  have needs := (validate_ok_iff.mp valid id element held).2
  constructor
  · rw [← tree.pinsOf_eq_children held owner]
    cases kind : element.kind with
    | gate _ | memory _ =>
        rw [kind] at needs
        exact needs
    | timer _ _ =>
        rw [kind] at needs
        exact needs.1
    | _ => simp [kind, Kind.isLogic] at logic
  · intro child member
    obtain ⟨other, point, childHeld, isPin, owns⟩ := tree.owned_pin held owner member
    refine ⟨other, childHeld, ?_⟩
    rcases owns with ⟨isSignal, _⟩ | ⟨_, rfl⟩
    · cases kind : element.kind <;> simp [kind, Kind.isLogic, Kind.isSignal] at logic isSignal
    · exact isPin

end RelayLogic.Circuit.Tree
