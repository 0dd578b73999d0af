import RelayLogic.Proofs.Valid
import Mathlib.Data.Set.Function
import Mathlib.Order.Interval.Set.Defs

/-!
Circuits that differ in the handles of their elements. What a circuit is valid for does not depend
on the handles.
-/

namespace RelayLogic

def Kind.renamed (rename : ElementId → ElementId) : Kind → Kind
  | .wire line => .wire { line with start := rename line.start, stop := rename line.stop }
  | .signal onto => .signal (onto.map rename)
  | .tag initial _ => .tag initial []
  | kind => kind

structure Element.Twin (rename : ElementId → ElementId) (kind : Kind) (children : List ElementId)
    (element twin : Element) : Prop where
  kind : twin.kind = kind.renamed rename
  owner : twin.owner = element.owner.map rename
  children : twin.children = children.map rename
  name : element.kind.isTag → twin.name = element.name

namespace Circuit

/-- Whether one circuit is what is kept of another one, under other handles. The solution keeps its
handle, and each element its kind, its owner, what is kept of its children in their order, and, if it
is a tag, its name. -/
structure Extracts (circuit : Circuit) (kept : ElementId → Bool) (rename : Nat → Nat)
    (copy : Circuit) : Prop where
  fixed : rename solution = solution
  exist : ∀ id : Nat, kept id → id < circuit.size
  bijective : Set.BijOn rename {id | kept id} (Set.Iio copy.size)
  each : ∀ id element, circuit.get? id = some element → kept id → ∃ twin,
    copy.get? (rename id) = some twin ∧
      element.Twin rename element.kind (element.children.filter kept) twin

/-- Whether one circuit is another one under other handles. The solution keeps its handle, and each
element its kind, its owner, its children in their order, and, if it is a tag, its name. -/
structure Renames (circuit : Circuit) (rename : Nat → Nat) (copy : Circuit) : Prop where
  fixed : rename solution = solution
  bijective : Set.BijOn rename (Set.Iio circuit.size) (Set.Iio copy.size)
  each : ∀ id element, circuit.get? id = some element → ∃ twin, copy.get? (rename id) = some twin ∧
    element.Twin rename element.kind element.children twin

namespace Extracts

variable {circuit copy : Circuit} {kept : ElementId → Bool} {rename : Nat → Nat}
  (extracts : circuit.Extracts kept rename copy) {id : ElementId} (isKept : kept id)

include extracts isKept

theorem twin : ∃ element twin, circuit.get? id = some element ∧ copy.get? (rename id) = some twin ∧
    element.Twin rename element.kind (element.children.filter kept) twin := by
  obtain ⟨element, held⟩ := exists_get? (extracts.exist id isKept)
  obtain ⟨twin, twinHeld, isTwin⟩ := extracts.each id element held isKept
  exact ⟨element, twin, held, twinHeld, isTwin⟩

theorem owner : copy.owner (rename id) = (circuit.owner id).map rename := by
  obtain ⟨element, twin, held, twinHeld, isTwin⟩ := extracts.twin isKept
  simp only [Circuit.owner, held, twinHeld, Option.bind_some, isTwin.owner]

theorem isPin : copy.isPin (rename id) = circuit.isPin id := by
  obtain ⟨element, twin, held, twinHeld, isTwin⟩ := extracts.twin isKept
  simp only [Circuit.isPin, held, twinHeld, isTwin.kind]
  cases element.kind <;> rfl

theorem direction (isPin : circuit.isPin id) :
    copy.direction (rename id) = circuit.direction id := by
  obtain ⟨element, point, held, same⟩ := isPin_held isPin
  obtain ⟨twin, twinHeld, isTwin⟩ := extracts.each id element held isKept
  have twinSame : twin.kind = .pin point := by rw [isTwin.kind, same]; rfl
  rw [direction_of_pin held same, direction_of_pin twinHeld twinSame]

theorem isTag (isTag : circuit.IsTag id) : copy.IsTag (rename id) := by
  obtain ⟨element, held, isTag⟩ := isTag
  obtain ⟨twin, twinHeld, isTwin⟩ := extracts.each id element held isKept
  refine ⟨twin, twinHeld, ?_⟩
  rw [isTwin.kind]
  cases kind : element.kind <;> simp [kind, Kind.isTag, Kind.renamed] at isTag ⊢

theorem pinsOf (pins : ∀ pin ∈ circuit.pinsOf id, kept pin) :
    copy.pinsOf (rename id) = (circuit.pinsOf id).map rename := by
  obtain ⟨element, twin, held, twinHeld, isTwin⟩ := extracts.twin isKept
  simp only [Circuit.pinsOf, children, held, twinHeld, isTwin.children] at pins ⊢
  rw [List.filter_map, List.filter_filter]
  refine congrArg _ (List.filter_congr fun child member => ?_)
  cases keeps : kept child with
  | true => rw [Bool.and_true, Function.comp_apply, extracts.isPin keeps]
  | false =>
      rw [Bool.and_false]
      by_contra isPin
      have listed := pins child (List.mem_filter.mpr ⟨member, by simpa using Ne.symm isPin⟩)
      rw [keeps] at listed
      contradiction

theorem hasParts {element : Element}
    (parts : element.kind.isSignal ∨ element.kind.isLogic → ∀ pin ∈ circuit.pinsOf id, kept pin)
    (targets : ∀ target ∈ element.kind.targets, kept target)
    (needs : circuit.HasParts id element.kind) :
    copy.HasParts (rename id) (element.kind.renamed rename) := by
  have pins : element.kind.isSignal ∨ element.kind.isLogic →
      copy.pinsOf (rename id) = (circuit.pinsOf id).map rename :=
    fun owner => extracts.pinsOf isKept (parts owner)
  cases kind : element.kind with
  | wire wire =>
      rw [kind] at needs targets
      obtain ⟨startPin, stopPin, different⟩ := needs
      have startKept := targets wire.start (by simp [Kind.targets])
      have stopKept := targets wire.stop (by simp [Kind.targets])
      refine ⟨(extracts.isPin startKept).trans startPin, (extracts.isPin stopKept).trans stopPin, ?_⟩
      exact fun same => different (extracts.bijective.injOn startKept stopKept same)
  | signal tag =>
      rw [kind] at needs parts pins targets
      obtain ⟨arePins, mapped⟩ := needs
      refine ⟨?_, fun other isOther => ?_⟩
      · have listed := parts (Or.inl rfl)
        rw [pins (Or.inl rfl)]
        unfold areSignalPins at arePins
        split at arePins
        next input output found =>
          have each : ∀ pin ∈ [input, output], copy.direction (rename pin) = circuit.direction pin := by
            rw [← found]
            exact fun pin member =>
              extracts.direction (listed pin member) (List.mem_filter.mp member).2
          rw [found]
          simp only [areSignalPins, List.map_cons, List.map_nil, each input (by simp),
            each output (by simp), arePins]
        next => contradiction
      · obtain ⟨original, isOriginal, rfl⟩ := Option.map_eq_some_iff.mp isOther
        refine extracts.isTag (targets original ?_) (mapped original isOriginal)
        simpa [Kind.targets] using isOriginal
  | timer timer delay =>
      rw [kind] at needs pins
      exact ⟨by rw [pins (Or.inr rfl), List.length_map]; exact needs.1, needs.2⟩
  | gate _ | memory _ =>
      rw [kind] at needs pins
      change (copy.pinsOf (rename id)).length = 4
      rw [pins (Or.inr rfl), List.length_map]
      exact needs
  | _ => trivial

omit isKept

theorem valid (valid : circuit.validate = .ok ())
    (parts : ∀ id element, circuit.get? id = some element → kept id →
      element.kind.isSignal ∨ element.kind.isLogic → ∀ pin ∈ circuit.pinsOf id, kept pin)
    (targets : ∀ id element, circuit.get? id = some element → kept id →
      ∀ target ∈ element.kind.targets, kept target) : copy.validate = .ok () := by
  refine validate_ok_iff.mpr fun place twin twinHeld => ?_
  obtain ⟨id, isKept, rfl⟩ := extracts.bijective.surjOn (get?_lt twinHeld)
  obtain ⟨element, other, held, otherHeld, isTwin⟩ := extracts.twin isKept
  obtain ⟨owned, needs⟩ := validate_ok_iff.mp valid id element held
  rw [twinHeld] at otherHeld
  cases otherHeld
  constructor
  · intro child member
    rw [isTwin.children] at member
    obtain ⟨original, originalMember, rfl⟩ := List.mem_map.mp member
    obtain ⟨listed, originalKept⟩ := List.mem_filter.mp originalMember
    rw [extracts.owner originalKept, owned original listed, Option.map_some]
  · rw [isTwin.kind]
    exact extracts.hasParts isKept (parts id element held isKept)
      (targets id element held isKept) needs

end Extracts

namespace Renames

variable {circuit copy : Circuit} {rename : Nat → Nat} (renames : circuit.Renames rename copy)

include renames

theorem extracts (owned : ∀ id element, circuit.get? id = some element →
      ∀ child ∈ element.children, circuit.owner child = some id) :
    circuit.Extracts (fun id => decide (id < circuit.size)) rename copy where
  fixed := renames.fixed
  exist _ := of_decide_eq_true
  bijective := by
    simp only [decide_eq_true_eq]
    exact renames.bijective
  each id element held _ := by
    obtain ⟨twin, twinHeld, isTwin⟩ := renames.each id element held
    have all : element.children.filter (fun id => decide (id < circuit.size)) =
        element.children := by
      refine List.filter_eq_self.mpr fun child member => decide_eq_true ?_
      obtain ⟨_, childHeld, _⟩ := Option.bind_eq_some_iff.mp (owned id element held child member)
      exact get?_lt childHeld
    exact ⟨twin, twinHeld, all.symm ▸ isTwin⟩

theorem valid (valid : circuit.validate = .ok ()) : copy.validate = .ok () := by
  have good := validate_ok_iff.mp valid
  have extracts := renames.extracts fun id element held => (good id element held).1
  refine extracts.valid valid (fun id element held _ _ pin member => ?_)
    fun id element held _ target member => ?_
  · obtain ⟨_, _, pinHeld, _⟩ := isPin_held (List.mem_filter.mp member).2
    exact decide_eq_true (get?_lt pinHeld)
  · have needs := (good id element held).2
    cases kind : element.kind with
    | wire wire =>
        rw [kind] at needs member
        obtain ⟨start, stop, _⟩ := needs
        rcases List.mem_pair.mp member with rfl | rfl
        · obtain ⟨_, _, pinHeld, _⟩ := isPin_held start
          exact decide_eq_true (get?_lt pinHeld)
        · obtain ⟨_, _, pinHeld, _⟩ := isPin_held stop
          exact decide_eq_true (get?_lt pinHeld)
    | signal tag =>
        rw [kind] at needs member
        obtain ⟨_, tagHeld, _⟩ := needs.2 target (by simpa [Kind.targets] using member)
        exact decide_eq_true (get?_lt tagHeld)
    | _ => simp [kind, Kind.targets] at member

end Renames

end Circuit

end RelayLogic
