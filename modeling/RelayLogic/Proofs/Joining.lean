import RelayLogic.Proofs.Drawing
import RelayLogic.Proofs.Valid
import RelayLogic.Proofs.Walk

/-!
What wires and relay pins join. In a valid circuit these are pins, and in a drawn one a pin is a
relay, or of a signal, or of a gate, a timer or a memory.
-/

namespace RelayLogic.Circuit

variable {circuit : Circuit}

theorem mem_collect {view : Element → Option α} {id : ElementId} {answer : α} :
    (id, answer) ∈ circuit.collect view ↔
      ∃ element, circuit.get? id = some element ∧ view element = some answer := by
  simp only [collect, ids, List.mem_filterMap, List.mem_range, Option.map_eq_some_iff,
    Option.bind_eq_some_iff, Prod.mk.injEq]
  constructor
  · rintro ⟨other, _, answer, ⟨element, held, viewed⟩, rfl, rfl⟩
    exact ⟨element, held, viewed⟩
  · rintro ⟨element, held, viewed⟩
    exact ⟨id, get?_lt held, answer, ⟨element, held, viewed⟩, rfl, rfl⟩

theorem mem_wires {id : ElementId} {wire : Wire} :
    (id, wire) ∈ circuit.wires ↔ ∃ element, circuit.get? id = some element ∧
      element.kind = .wire wire := by
  rw [wires, mem_collect]
  refine exists_congr fun element => and_congr_right fun _ => ?_
  cases element.kind <;> simp

theorem mem_links {here : ElementId} {next : Connection} :
    (here, next) ∈ circuit.adjacency.links ↔ ∃ id element wire, circuit.get? id = some element ∧
      element.kind = .wire wire ∧ (here, next) ∈ wire.links := by
  simp only [adjacency, List.mem_flatMap, Prod.exists, mem_wires]
  constructor
  · rintro ⟨id, wire, ⟨element, held, same⟩, member⟩
    exact ⟨id, element, wire, held, same, member⟩
  · rintro ⟨id, element, wire, held, same, member⟩
    exact ⟨id, wire, ⟨element, held, same⟩, member⟩

/-- Another pin, not a relay, that wires and relay pins join to a given one. -/
def Joined (circuit : Circuit) (root pin : ElementId) : Prop :=
  pin ≠ root ∧ circuit.isRelay pin = false ∧
    ∃ inverted, circuit.adjacency.Way circuit.isRelay root pin inverted

theorem mem_endpoints {root pin : ElementId} :
    pin ∈ circuit.endpoints circuit.adjacency root ↔ circuit.Joined root pin := by
  rw [endpoints, List.mem_filter, Adjacency.mem_walk_iff, Joined, and_assoc]
  refine and_congr_right fun _ => ?_
  rw [and_comm]
  simp

instance (root pin : ElementId) : Decidable (circuit.Joined root pin) :=
  decidable_of_iff _ mem_endpoints

theorem Joined.touches {root pin : ElementId} (joined : circuit.Joined root pin) :
    circuit.adjacency.touches root := by
  obtain ⟨-, -, inverted, way⟩ := joined
  induction way with
  | first link =>
      rw [Adjacency.touches, List.any_eq_true]
      exact ⟨_, link, by simp⟩
  | onward _ _ _ ih => exact ih

theorem Joined.isPin (valid : circuit.validate = .ok ()) {root pin : ElementId}
    (joined : circuit.Joined root pin) : circuit.isPin pin := by
  have linked : ∀ here next, (here, next) ∈ circuit.adjacency.links → circuit.isPin next.pin := by
    intro here next link
    obtain ⟨id, element, wire, held, same, member⟩ := mem_links.mp link
    have parts := (validate_ok_iff.mp valid id element held).2
    rw [same] at parts
    simp only [Wire.links, List.mem_cons, Prod.mk.injEq, List.not_mem_nil, or_false] at member
    rcases member with ⟨_, rfl⟩ | ⟨_, rfl⟩
    · exact parts.2.1
    · exact parts.1
  obtain ⟨-, -, inverted, way⟩ := joined
  cases way with
  | first link => exact linked _ _ link
  | onward _ _ link => exact linked _ _ link

theorem pin_ok_iff {id : ElementId} {pin : Pin} :
    circuit.pin id = .ok pin ↔ ∃ element, circuit.get? id = some element ∧ element.kind = .pin pin := by
  unfold Circuit.pin Circuit.element
  cases circuit.get? id with
  | none => simp [bind, Except.bind]
  | some element =>
      obtain ⟨name, kind, owner, children, evaluator, block⟩ := element
      cases kind <;> simp [bind, Except.bind, pure, Except.pure, throw, throwThe,
        MonadExceptOf.throw]

theorem direction_of_fixed {id : ElementId} {direction : Direction}
    (fixed : circuit.pin id = .ok (.fixed direction)) : circuit.direction id = direction := by
  obtain ⟨element, held, same⟩ := pin_ok_iff.mp fixed
  exact direction_of_pin held same

inductive PinOf (circuit : Circuit) (pin owner : ElementId) : Prop
  | relay (contains : circuit.IsContainer owner) (isRelay : circuit.isRelay pin)
      (undirected : circuit.direction pin = .undefined)
  | signal (isSignal : circuit.IsSignal owner) (isSignalPin : circuit.isSignalPin pin)
      (notRelay : circuit.isRelay pin = false)
  | logic (isLogic : circuit.IsLogic owner) (notSignalPin : circuit.isSignalPin pin = false)
      (notRelay : circuit.isRelay pin = false) (undirected : circuit.direction pin = .undefined)

namespace Tree

section

variable {belongs : Kind → Kind → Prop} (tree : circuit.Tree belongs)

include tree

theorem mem_pinsOf {pin owner : ElementId} :
    pin ∈ circuit.pinsOf owner ↔ circuit.isPin pin ∧ circuit.owner pin = some owner := by
  rw [pinsOf, List.mem_filter, tree.mem_children, and_comm]

theorem nodup_pinsOf (owner : ElementId) : (circuit.pinsOf owner).Nodup :=
  (tree.nodup_children owner).filter _

theorem pinsOf_unique {pin first second : ElementId}
    (member : pin ∈ circuit.pinsOf first) (other : pin ∈ circuit.pinsOf second) :
    first = second := by
  have owned := (tree.mem_pinsOf.mp member).2
  rw [(tree.mem_pinsOf.mp other).2] at owned
  exact (Option.some.inj owned).symm

end

variable (tree : circuit.Tree Kind.Owns)

include tree

/-- Every pin of a drawn circuit has an owner, and is what its owner makes of it. -/
theorem pinOf {pin : ElementId} (isPin : circuit.isPin pin) :
    ∃ owner, pin ∈ circuit.pinsOf owner ∧ circuit.PinOf pin owner := by
  obtain ⟨element, point, held, same⟩ := isPin_held isPin
  have direction := direction_of_pin held same
  have notRoot : pin ≠ solution := by
    rintro rfl
    obtain ⟨root, rootHeld, isSolution, _⟩ := tree.root
    rw [held] at rootHeld
    rw [← Option.some.inj rootHeld, same] at isSolution
    contradiction
  obtain ⟨owner, container, owned, containerHeld, _, belongs⟩ :=
    tree.owned pin element held notRoot
  have plain := tree.plain pin element held
  have owner_eq : circuit.owner pin = some owner := by
    simp only [Circuit.owner, held, Option.bind_some, owned]
  have relay : circuit.isRelay pin = container.kind.isContainer := by
    simp only [isRelay, isPin, owner_eq, Option.bind_some, containerHeld, Bool.true_and]
  have signalPin : circuit.isSignalPin pin =
      (container.kind.isSignal || container.kind.isTag) := by
    simp [isSignalPin, held, owned, plain, isSignalOrTag, containerHeld]
  refine ⟨owner, tree.mem_pinsOf.mpr ⟨isPin, owner_eq⟩, ?_⟩
  rw [same] at belongs
  obtain ⟨isSignal, _⟩ | ⟨contains | logic, rfl⟩ := belongs
  · refine .signal ⟨container, containerHeld, isSignal⟩ (by simp [signalPin, isSignal]) ?_
    rw [relay]
    cases same : container.kind <;> simp [same, Kind.isSignal, Kind.isContainer] at isSignal ⊢
  · exact .relay ⟨container, containerHeld, contains⟩ (relay.trans contains) direction
  · refine .logic ⟨container, containerHeld, logic⟩ ?_ ?_ direction
    · rw [signalPin]
      cases same : container.kind <;> simp [same, Kind.isLogic, Kind.isSignal, Kind.isTag] at logic ⊢
    · rw [relay]
      cases same : container.kind <;> simp [same, Kind.isLogic, Kind.isContainer] at logic ⊢

theorem logic_pin {pin id : ElementId}
    (isLogic : circuit.IsLogic id) (member : pin ∈ circuit.pinsOf id) :
    circuit.isSignalPin pin = false ∧ circuit.direction pin = .undefined := by
  obtain ⟨owner, owned, pinOf⟩ := tree.pinOf (tree.mem_pinsOf.mp member).1
  cases tree.pinsOf_unique member owned
  cases pinOf with
  | relay contains _ _ => exact absurd contains isLogic.not_isContainer
  | signal isSignal _ _ => exact absurd isSignal isLogic.not_isSignal
  | logic _ notSignalPin _ undirected => exact ⟨notSignalPin, undirected⟩

theorem logic_notRelay {pin id : ElementId} (isLogic : circuit.IsLogic id)
    (member : pin ∈ circuit.pinsOf id) : circuit.isRelay pin = false := by
  obtain ⟨owner, owned, pinOf⟩ := tree.pinOf (tree.mem_pinsOf.mp member).1
  cases tree.pinsOf_unique member owned
  cases pinOf with
  | relay contains _ _ => exact absurd contains isLogic.not_isContainer
  | signal _ _ notRelay => exact notRelay
  | logic _ _ notRelay _ => exact notRelay

theorem signal_fixed {pin : ElementId} (isPin : circuit.isPin pin)
    (isSignalPin : circuit.isSignalPin pin) :
    ∃ direction, circuit.pin pin = .ok (.fixed direction) ∧ direction ≠ .undefined := by
  obtain ⟨element, point, held, same⟩ := isPin_held isPin
  have plain := tree.plain pin element held
  simp only [Circuit.isSignalPin, held, plain, Option.any_none, Bool.or_false] at isSignalPin
  have notRoot : pin ≠ solution := by
    rintro rfl
    obtain ⟨root, rootHeld, isSolution, _⟩ := tree.root
    rw [held] at rootHeld
    rw [← Option.some.inj rootHeld, same] at isSolution
    contradiction
  obtain ⟨owner, container, owned, containerHeld, _, belongs⟩ :=
    tree.owned pin element held notRoot
  simp only [owned, Option.any_some, isSignalOrTag, containerHeld] at isSignalPin
  rw [pin_ok_iff.mpr ⟨element, held, same⟩]
  rw [same] at belongs
  obtain ⟨_, rfl | rfl⟩ | ⟨contains | logic, rfl⟩ := belongs
  · exact ⟨.input, rfl, by decide⟩
  · exact ⟨.output, rfl, by decide⟩
  · cases kind : container.kind <;>
      simp [kind, Kind.isContainer, Kind.isSignal, Kind.isTag] at contains isSignalPin
  · cases kind : container.kind <;>
      simp [kind, Kind.isLogic, Kind.isSignal, Kind.isTag] at logic isSignalPin

theorem signal_directed {pin : ElementId} (isPin : circuit.isPin pin)
    (isSignalPin : circuit.isSignalPin pin) : circuit.direction pin ≠ .undefined := by
  obtain ⟨direction, fixed, known⟩ := tree.signal_fixed isPin isSignalPin
  rwa [direction_of_fixed fixed]

end Tree

end RelayLogic.Circuit
