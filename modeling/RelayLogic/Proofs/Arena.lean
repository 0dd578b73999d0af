import RelayLogic.Circuit.Build
import Mathlib.Data.List.Basic

/-!
The elements of a circuit after each of the changes that building is made of.
-/

namespace RelayLogic

def Element.adding (child : ElementId) (element : Element) : Element :=
  { element with children := element.children ++ [child] }

def Kind.targets : Kind → List ElementId
  | .wire link => [link.start, link.stop]
  | .signal mapped => mapped.toList
  | _ => []

namespace Circuit

variable {circuit : Circuit}

theorem get?_lt {id : Nat} {element : Element} (held : circuit.get? id = some element) :
    id < circuit.size :=
  (Array.getElem?_eq_some_iff.mp held).1

theorem exists_get? {id : Nat} (bound : id < circuit.size) :
    ∃ element, circuit.get? id = some element :=
  ⟨circuit.elements[id], Array.getElem?_eq_getElem bound⟩

theorem ext_get? {first second : Circuit} (same : ∀ id, first.get? id = second.get? id) :
    first = second := by
  cases first
  cases second
  exact congrArg Circuit.mk (Array.ext_getElem? same)

def IsTag (circuit : Circuit) (id : ElementId) : Prop :=
  ∃ element, circuit.get? id = some element ∧ element.kind.isTag

def IsSignal (circuit : Circuit) (id : ElementId) : Prop :=
  ∃ element, circuit.get? id = some element ∧ element.kind.isSignal

def IsLogic (circuit : Circuit) (id : ElementId) : Prop :=
  ∃ element, circuit.get? id = some element ∧ element.kind.isLogic

def IsContainer (circuit : Circuit) (id : ElementId) : Prop :=
  ∃ element, circuit.get? id = some element ∧ element.kind.isContainer

instance (id : ElementId) : Decidable (circuit.IsSignal id) :=
  decidable_of_iff _ (Option.any_eq_true (·.kind.isSignal) (circuit.get? id))

instance (id : ElementId) : Decidable (circuit.IsLogic id) :=
  decidable_of_iff _ (Option.any_eq_true (·.kind.isLogic) (circuit.get? id))

theorem IsSignal.mem_ids {id : ElementId} (isSignal : circuit.IsSignal id) : id ∈ circuit.ids := by
  obtain ⟨element, held, _⟩ := isSignal
  exact List.mem_range.mpr (get?_lt held)

theorem IsLogic.mem_ids {id : ElementId} (isLogic : circuit.IsLogic id) : id ∈ circuit.ids := by
  obtain ⟨element, held, _⟩ := isLogic
  exact List.mem_range.mpr (get?_lt held)

theorem IsLogic.not_isSignal {id : ElementId} (isLogic : circuit.IsLogic id) :
    ¬circuit.IsSignal id := by
  rintro ⟨element, held, isSignal⟩
  obtain ⟨other, found, isLogic⟩ := isLogic
  rw [Option.some.inj (held.symm.trans found)] at isSignal
  cases same : other.kind <;> simp [same, Kind.isLogic, Kind.isSignal] at isLogic isSignal

theorem IsLogic.not_isContainer {id : ElementId} (isLogic : circuit.IsLogic id) :
    ¬circuit.IsContainer id := by
  rintro ⟨element, held, contains⟩
  obtain ⟨other, found, isLogic⟩ := isLogic
  rw [Option.some.inj (held.symm.trans found)] at contains
  cases same : other.kind <;> simp [same, Kind.isLogic, Kind.isContainer] at isLogic contains

theorem element_ok_iff {id : ElementId} {element : Element} :
    circuit.element id = .ok element ↔ circuit.get? id = some element := by
  unfold Circuit.element
  cases circuit.get? id <;> simp

theorem isPin_iff {id : ElementId} : circuit.isPin id ↔ ∃ pin, circuit.pin id = .ok pin := by
  unfold isPin Circuit.pin Circuit.element
  cases circuit.get? id with
  | none => simp [bind, Except.bind]
  | some element =>
      obtain ⟨name, kind, owner, children, evaluator, block⟩ := element
      cases kind <;> simp [bind, Except.bind, Kind.isPin, pure, Except.pure, throw, throwThe,
        MonadExceptOf.throw]

theorem isPin_held {pin : ElementId} (isPin : circuit.isPin pin) :
    ∃ element point, circuit.get? pin = some element ∧ element.kind = .pin point := by
  unfold Circuit.isPin at isPin
  split at isPin
  next element held =>
    obtain ⟨name, kind, owner, children, evaluator, block⟩ := element
    cases kind with
    | pin point => exact ⟨_, point, held, rfl⟩
    | _ => contradiction
  next => contradiction

theorem direction_of_pin {id : ElementId} {element : Element} {pin : Pin}
    (held : circuit.get? id = some element) (equal : element.kind = .pin pin) :
    circuit.direction id = pin.direction := by
  obtain ⟨name, kind, owner, children, evaluator, block⟩ := element
  simp only at equal
  subst equal
  simp only [direction, held]

@[simp] theorem size_update (circuit : Circuit) (id : ElementId) (change : Element → Element) :
    (circuit.update id change).size = circuit.size := by
  simp [update, size]

theorem get?_update (circuit : Circuit) (id other : ElementId) (change : Element → Element) :
    (circuit.update id change).get? other =
      if other = id then (circuit.get? other).map change else circuit.get? other := by
  simp only [update, get?, Array.getElem?_modify, eq_comm]

@[simp] theorem get?_update_self (circuit : Circuit) (id : ElementId)
    (change : Element → Element) :
    (circuit.update id change).get? id = (circuit.get? id).map change := by
  simp [get?_update]

theorem get?_update_ne {id other : ElementId} (different : other ≠ id)
    (change : Element → Element) : (circuit.update id change).get? other = circuit.get? other := by
  simp [get?_update, different]

@[simp] theorem size_push (circuit : Circuit) (owner : ElementId) (name : String) (kind : Kind) :
    (circuit.push owner name kind).size = circuit.size + 1 := by
  simp [push, size, update]

theorem get?_push {owner : ElementId} (known : owner < circuit.size) (name : String)
    (kind : Kind) (other : ElementId) :
    (circuit.push owner name kind).get? other =
      if other = circuit.size then some ⟨name, kind, some owner, [], none, none⟩
      else if other = owner then (circuit.get? other).map (·.adding circuit.size)
      else circuit.get? other := by
  have grown : (Circuit.mk (circuit.elements.push ⟨name, kind, some owner, [], none, none⟩)).get?
      other = if other = circuit.size then some ⟨name, kind, some owner, [], none, none⟩
        else circuit.get? other := by
    exact Array.getElem?_push
  simp only [push, get?_update, grown]
  by_cases new : other = circuit.size
  · have different : circuit.size ≠ owner := Nat.ne_of_gt known
    simp only [new, different, ↓reduceIte]
  · by_cases same : other = owner
    · subst same
      simp only [new, ↓reduceIte]
      rfl
    · simp only [new, same, ↓reduceIte]

theorem get?_push_owner {owner : Nat} {container : Element}
    (held : circuit.get? owner = some container) (name : String) (kind : Kind) :
    (circuit.push owner name kind).get? owner = some (container.adding circuit.size) := by
  have known : owner < circuit.size := get?_lt held
  rw [get?_push known]
  simp [held, Nat.ne_of_lt known]

@[simp] theorem size_moveChild (circuit : Circuit) (owner child : ElementId) :
    (circuit.moveChild owner child).size = circuit.size := by
  unfold moveChild
  split <;> simp

def Every (property : Element → Prop) (circuit : Circuit) : Prop :=
  ∀ id element, circuit.get? id = some element → property element

theorem Every.update {property : Element → Prop} (every : circuit.Every property)
    (id : ElementId) {change : Element → Element}
    (kept : ∀ element, property element → property (change element)) :
    (circuit.update id change).Every property := by
  intro other element held
  rw [get?_update] at held
  split at held
  · obtain ⟨before, found, rfl⟩ := Option.map_eq_some_iff.mp held
    exact kept before (every other before found)
  · exact every other element held

theorem Every.push {property : Element → Prop} (every : circuit.Every property)
    (owner : ElementId) (name : String) (kind : Kind)
    (new : property ⟨name, kind, some owner, [], none, none⟩)
    (kept : ∀ child element, property element → property (element.adding child)) :
    (circuit.push owner name kind).Every property := by
  have grown : (Circuit.mk (circuit.elements.push
      ⟨name, kind, some owner, [], none, none⟩)).Every property := by
    intro other element held
    simp only [get?, Array.getElem?_push] at held
    split at held
    · cases held
      exact new
    · exact every other element held
  exact grown.update owner (kept circuit.size)

theorem Every.moveChild {property : Element → Prop} (every : circuit.Every property)
    (owner child : ElementId)
    (kept : ∀ owner children element, property element →
      property { element with owner := owner, children := children }) :
    (circuit.moveChild owner child).Every property := by
  have children : ∀ children element, property element →
      property { element with children := children } :=
    fun children element holds => kept element.owner children element holds
  have owners : ∀ owner element, property element → property { element with owner := owner } :=
    fun owner element holds => kept owner element.children element holds
  unfold Circuit.moveChild
  split
  · exact ((every.update _ (fun _ => children _ _)).update _ (fun _ => owners _ _)).update _
      (fun _ => children _ _)
  · exact (every.update _ (fun _ => owners _ _)).update _ (fun _ => children _ _)

end Circuit

end RelayLogic
