import RelayLogic.Circuit.Validity
import RelayLogic.Proofs.Arena

/-!
What a valid circuit is, told apart from the order in which its faults would be found.
-/

namespace RelayLogic

namespace Check

theorem bind_ok_iff {first : Except Error α} {next : α → Except Error β} {answer : β} :
    (first >>= next) = .ok answer ↔ ∃ middle, first = .ok middle ∧ next middle = .ok answer := by
  cases first <;> simp [bind, Except.bind]

theorem guard_ok_iff {condition : Prop} [Decidable condition] {check : Except Error Unit}
    {error : Error} :
    (if condition then check else throw error) = .ok () ↔ condition ∧ check = .ok () := by
  by_cases holds : condition <;> simp [holds, throw, throwThe, MonadExceptOf.throw]

theorem refuse_ok_iff {condition : Prop} [Decidable condition] {check : Except Error Unit}
    {error : Error} :
    (if condition then throw error else check) = .ok () ↔ ¬condition ∧ check = .ok () := by
  by_cases holds : condition <;> simp [holds, throw, throwThe, MonadExceptOf.throw]

theorem forM_ok_iff {items : List α} {check : α → Except Error Unit} :
    items.forM check = .ok () ↔ ∀ item ∈ items, check item = .ok () := by
  induction items with
  | nil => simp [pure, Except.pure]
  | cons item items ih =>
      rw [List.forM_eq_forM] at ih ⊢
      rw [List.forM_cons, bind_ok_iff, List.forall_mem_cons, ← ih]
      exact ⟨fun ⟨_, first, rest⟩ => ⟨first, rest⟩, fun ⟨first, rest⟩ => ⟨(), first, rest⟩⟩

end Check

namespace Circuit

open Check

variable {circuit : Circuit}

def HasParts (circuit : Circuit) (id : ElementId) : Kind → Prop
  | .wire wire => circuit.isPin wire.start ∧ circuit.isPin wire.stop ∧ wire.start ≠ wire.stop
  | .signal tag => circuit.areSignalPins (circuit.pinsOf id) ∧ ∀ id ∈ tag, circuit.IsTag id
  | .gate _ | .memory _ => (circuit.pinsOf id).length = 4
  | .timer _ delay =>
    (circuit.pinsOf id).length = 4 ∧ delay.isFinite ∧ delay.isNegative = false
  | _ => True

theorem checkChildren_ok_iff {id : ElementId} {children : List ElementId} :
    circuit.checkChildren id children = .ok () ↔
      ∀ child ∈ children, circuit.owner child = some id := by
  rw [checkChildren, forM_ok_iff]
  refine forall₂_congr fun child _ => ?_
  rw [bind_ok_iff, owner]
  constructor
  · rintro ⟨element, held, checked⟩
    rw [element_ok_iff.mp held]
    exact (guard_ok_iff.mp checked).1
  · intro owned
    obtain ⟨element, held, same⟩ := Option.bind_eq_some_iff.mp owned
    exact ⟨element, element_ok_iff.mpr held, guard_ok_iff.mpr ⟨same, rfl⟩⟩

theorem checkTag_ok_iff {tag : Option ElementId} :
    circuit.checkTag tag = .ok () ↔ ∀ id ∈ tag, circuit.IsTag id := by
  cases tag with
  | none => simp [checkTag, pure, Except.pure]
  | some id =>
      rw [checkTag, bind_ok_iff]
      simp only [element_ok_iff, guard_ok_iff, Option.mem_def, Option.some.injEq, forall_eq',
        IsTag, pure, Except.pure, and_true]

theorem checkParts_ok_iff {id : ElementId} {element : Element} :
    circuit.checkParts id element = .ok () ↔ circuit.HasParts id element.kind := by
  obtain ⟨name, kind, owner, children, evaluator, block⟩ := element
  cases kind with
  | wire wire =>
      simp only [checkParts, HasParts, bind_ok_iff, refuse_ok_iff, isPin_iff, pure, Except.pure,
        and_true]
      constructor
      · rintro ⟨start, startHeld, stop, stopHeld, different⟩
        exact ⟨⟨start, startHeld⟩, ⟨stop, stopHeld⟩, different⟩
      · rintro ⟨⟨start, startHeld⟩, ⟨stop, stopHeld⟩, different⟩
        exact ⟨start, startHeld, stop, stopHeld, different⟩
  | signal tag => simp only [checkParts, HasParts, guard_ok_iff, checkTag_ok_iff]
  | timer kind delay =>
      simp only [checkParts, HasParts, Kind.isLogic, ↓reduceIte, guard_ok_iff, pure, Except.pure,
        and_true, Bool.and_eq_true, Bool.not_eq_true']
  | gate kind | memory kind =>
      simp only [checkParts, HasParts, Kind.isLogic, ↓reduceIte, guard_ok_iff, pure, Except.pure,
        and_true]
  | _ => exact ⟨fun _ => trivial, fun _ => rfl⟩

/-- A circuit is valid if each element is owned by whom lists it and has the parts it needs. -/
theorem validate_ok_iff : circuit.validate = .ok () ↔
    ∀ id element, circuit.get? id = some element →
      (∀ child ∈ element.children, circuit.owner child = some id) ∧
        circuit.HasParts id element.kind := by
  have one : ∀ id, circuit.checkElement id = .ok () ↔ ∃ element, circuit.get? id = some element ∧
      (∀ child ∈ element.children, circuit.owner child = some id) ∧
        circuit.HasParts id element.kind := by
    intro id
    simp only [checkElement, bind_ok_iff, element_ok_iff, checkParts_ok_iff]
    refine exists_congr fun element => and_congr_right fun _ => ?_
    rw [← checkChildren_ok_iff]
    exact ⟨fun ⟨_, first, rest⟩ => ⟨first, rest⟩, fun ⟨first, rest⟩ => ⟨(), first, rest⟩⟩
  simp only [validate, forM_ok_iff, one, ids, List.mem_range]
  constructor
  · intro checked id element held
    obtain ⟨other, found, good⟩ := checked id (get?_lt held)
    rw [held] at found
    exact Option.some.inj found ▸ good
  · intro good id bound
    obtain ⟨element, held⟩ := exists_get? bound
    exact ⟨element, held, good id element held⟩

end Circuit

end RelayLogic
