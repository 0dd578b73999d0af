import RelayLogic.Proofs.Interleaving
import RelayLogic.Proofs.Lockstep
import RelayLogic.Proofs.Preparing
import RelayLogic.Proofs.Shifting

/-!
The plans of a circuit and of its copy. They have the same strategies in other slots, but for the
order in which tags are bound to outputs, and the slots of tags come first in both.
-/

namespace RelayLogic

namespace Circuit

variable {circuit copy : Circuit} {rename : Nat → Nat} {clock : Clock}

def bindingsFor (circuit : Circuit) (slots : List ElementId) (element pin : ElementId) :
    List Binding :=
  if circuit.isPin pin && circuit.evaluatorOf pin == some element &&
      circuit.direction pin == .input then
    (circuit.connections circuit.adjacency pin).filterMap (circuit.binding? slots)
  else []

theorem bindings_eq (circuit : Circuit) (slots : List ElementId) (element : ElementId) :
    circuit.bindings slots (circuit.inputConnections circuit.adjacency) element =
      circuit.ids.flatMap (circuit.bindingsFor slots element) := by
  rw [bindings, evaluatedPins, ← List.filterMap_eq_filter, List.filterMap_eq_flatMap_toList,
    List.flatMap_assoc]
  refine List.flatMap_congr fun pin _ => ?_
  unfold bindingsFor
  by_cases evaluated : circuit.isPin pin && circuit.evaluatorOf pin == some element
  · by_cases input : circuit.direction pin = .input
    · simp [Option.guard, evaluated, input, lookup_inputConnections]
    · simp [Option.guard, evaluated, input]
  · simp [Option.guard, evaluated]

def DrivenBy (circuit : Circuit) (slots : List ElementId) (kept : Nat → Bool)
    (element pin : ElementId) : Prop :=
  ∃ binding ∈ circuit.bindingsFor slots element pin, kept binding.source

def tagIds (circuit : Circuit) : List ElementId :=
  circuit.ids.filter fun id => (circuit.get? id).any (·.kind.isTag)

theorem any_isTag_iff {id : ElementId} :
    (circuit.get? id).any (·.kind.isTag) ↔ circuit.IsTag id :=
  Option.any_eq_true _ _

theorem mem_tagIds {id : ElementId} : id ∈ circuit.tagIds ↔ circuit.IsTag id := by
  rw [tagIds, List.mem_filter, any_isTag_iff, and_iff_right_of_imp]
  rintro ⟨element, held, _⟩
  exact List.mem_range.mpr (get?_lt held)

theorem IsTag.hasBehaviour {id : ElementId} (isTag : circuit.IsTag id) (clock : Clock) :
    (circuit.behaviour? clock id).isSome := by
  obtain ⟨element, held, isTag⟩ := isTag
  rw [behaviour?, held, Option.bind_some]
  cases kind : element.kind <;> simp [kind, Kind.isTag, Strategy.behaviourOf?] at isTag ⊢

theorem filter_front {list : List Nat} (sorted : list.Pairwise (· < ·)) {first all : Nat → Bool}
    (within : ∀ id, first id → all id)
    (apart : ∀ one ∈ list, ∀ other ∈ list, first one → all other → ¬first other → one < other) :
    list.filter all = list.filter first ++ list.filter fun id => all id && !first id := by
  refine eq_of_sorted (sorted.filter _) (List.pairwise_append.mpr ⟨sorted.filter _,
    sorted.filter _, ?_⟩) fun id => ?_
  · intro one oneMember other otherMember
    simp only [List.mem_filter, Bool.and_eq_true, Bool.not_eq_true'] at oneMember otherMember
    exact apart one oneMember.1 other otherMember.1 oneMember.2 otherMember.2.1
      (by simp [otherMember.2.2])
  · have every := within id
    simp only [List.mem_append, List.mem_filter, Bool.and_eq_true, Bool.not_eq_true']
    cases isFirst : first id with
    | false => simp
    | true => simp [every isFirst]

namespace Regroups

variable (regroups : circuit.Regroups rename copy)

include regroups

theorem simulated_rename (pin : Nat) :
    copy.simulated (rename pin) = (circuit.simulated pin).map rename := by
  rw [simulated, simulated, mappedTag, mappedTag, regroups.owner_rename]
  cases circuit.owner pin with
  | none => rfl
  | some owner =>
      simp only [Option.map_some, Option.bind_some, regroups.tagOf_rename]
      cases circuit.tagOf owner <;> rfl

theorem behaviour_rename (clock : Clock) (id : Nat) :
    copy.behaviour? clock (rename id) = circuit.behaviour? clock id := by
  cases held : circuit.get? id with
  | none => simp only [behaviour?, held, regroups.get?_rename_none held, Option.bind_none]
  | some element =>
      obtain ⟨twin, twinHeld, isTwin⟩ := regroups.each id element held
      simp only [behaviour?, held, twinHeld, Option.bind_some, isTwin.kind]
      cases element.kind with
      | signal tag => cases tag <;> rfl
      | _ => rfl

theorem perm_slots (clock : Clock) :
    (copy.slots clock).Perm ((circuit.slots clock).map rename) := by
  rw [slots_eq, slots_eq]
  refine (regroups.perm_ids.filter _).trans (List.Perm.of_eq ?_)
  rw [List.filter_map]
  exact congrArg _ (List.filter_congr fun id _ => congrArg _ (regroups.behaviour_rename clock id))

theorem slots_front (clock : Clock) : ∃ back twinBack,
    circuit.slots clock = circuit.tagIds ++ back ∧
      copy.slots clock = circuit.tagIds.map rename ++ twinBack := by
  have ahead : ∀ tag ∈ circuit.ids, ∀ other ∈ circuit.ids,
      (circuit.get? tag).any (·.kind.isTag) → (circuit.behaviour? clock other).isSome →
        ¬(circuit.get? other).any (·.kind.isTag) → tag < other := by
    intro tag _ other bound isTag behaves notTag
    rw [any_isTag_iff] at isTag notTag
    refine regroups.tagsFirst tag other isTag (List.mem_range.mp bound) ?_ notTag
    rintro rfl
    obtain ⟨root, held, isSolution, _⟩ := regroups.tree.root
    simp [behaviour?, held, isSolution, Strategy.behaviourOf?] at behaves
  have twinTag : ∀ id, (copy.get? (rename id)).any (·.kind.isTag) =
      (circuit.get? id).any (·.kind.isTag) :=
    regroups.any_kind Kind.isTag fun kind => by cases kind <;> rfl
  have hasBehaviour : ∀ (circuit : Circuit) id, (circuit.get? id).any (·.kind.isTag) →
      (circuit.behaviour? clock id).isSome := fun _ _ isTag =>
    IsTag.hasBehaviour (any_isTag_iff.mp isTag) clock
  have tags : copy.ids.filter (fun id => (copy.get? id).any (·.kind.isTag)) =
      circuit.tagIds.map rename := by
    refine regroups.filter_ids twinTag fun first second bound less isTag _ => ?_
    exact regroups.tagsOrdered first second (any_isTag_iff.mp isTag) bound less
  have twinAhead : ∀ tag ∈ copy.ids, ∀ other ∈ copy.ids, (copy.get? tag).any (·.kind.isTag) →
      (copy.behaviour? clock other).isSome → ¬(copy.get? other).any (·.kind.isTag) →
        tag < other := by
    intro tag tagMember other otherMember
    obtain ⟨tag, tagBound, rfl⟩ := List.mem_map.mp (regroups.perm_ids.mem_iff.mp tagMember)
    obtain ⟨other, bound, rfl⟩ := List.mem_map.mp (regroups.perm_ids.mem_iff.mp otherMember)
    rw [twinTag, twinTag, regroups.behaviour_rename]
    intro isTag behaves notTag
    exact regroups.tagsOrdered tag other (any_isTag_iff.mp isTag) (List.mem_range.mp bound)
      (ahead tag tagBound other bound isTag behaves notTag)
  have sorted : ∀ circuit : Circuit, circuit.ids.Pairwise (· < ·) := fun _ =>
    List.pairwise_lt_range
  have front := filter_front (sorted circuit) (hasBehaviour circuit) ahead
  have twinFront := filter_front (sorted copy) (hasBehaviour copy) twinAhead
  rw [← slots_eq] at front twinFront
  rw [tags] at twinFront
  exact ⟨_, _, front, twinFront⟩

theorem readied : circuit.Readied circuit.prepared :=
  regroups.tree.readied (regroups.tree.pinned isPin_of_owns) regroups.settled

theorem copyReadied : copy.Readied copy.prepared :=
  regroups.copyTree.readied (regroups.copyTree.pinned isPin_of_owns) regroups.copySettled

theorem ids_prepared : circuit.prepared.ids = circuit.ids ∧ copy.prepared.ids = copy.ids :=
  ⟨congrArg List.range regroups.readied.size, congrArg List.range regroups.copyReadied.size⟩

variable (valid : circuit.validate = .ok ()) (copyValid : copy.validate = .ok ())

include valid copyValid

theorem direction_prepared (pin : Nat) :
    copy.prepared.direction (rename pin) = circuit.prepared.direction pin := by
  rw [regroups.readied.direction, regroups.copyReadied.direction]
  exact regroups.resolveDirections_rename valid copyValid pin

theorem bindingsFor_prepared {slots twins : List Nat} {shift : Nat → Nat}
    (shifts : Shifts rename slots twins shift) (element pin : Nat) :
    copy.prepared.bindingsFor twins (rename element) (rename pin) =
      (circuit.prepared.bindingsFor slots element pin).map (Binding.moved shift) := by
  have readied := regroups.readied
  have copyReadied := regroups.copyReadied
  have direction := regroups.direction_prepared valid copyValid
  have evaluatorOf : ∀ pin, copy.prepared.evaluatorOf (rename pin) =
      (circuit.prepared.evaluatorOf pin).map rename := by
    rw [readied.evaluatorOf, copyReadied.evaluatorOf]
    exact regroups.simulated_rename
  have connections : copy.prepared.connections copy.prepared.adjacency (rename pin) =
      (circuit.prepared.connections circuit.prepared.adjacency pin).map
        (Connection.renamed rename) := by
    rw [Circuit.connections, Circuit.connections, readied.adjacency, copyReadied.adjacency]
    exact regroups.walk_rename (fun pin => by rw [direction]) pin
  have binding : ∀ connection : Connection,
      copy.prepared.binding? twins (connection.renamed rename) =
        (circuit.prepared.binding? slots connection).map (Binding.moved shift) := by
    intro connection
    simp only [binding?, Connection.renamed, direction, evaluatorOf]
    split
    · cases circuit.prepared.evaluatorOf connection.pin with
      | none => rfl
      | some owner =>
          rw [Option.map_some, Option.bind_some, Option.bind_some, shifts.idxOf?]
          cases slots.idxOf? owner <;> rfl
    · rfl
  have evaluated : (copy.prepared.evaluatorOf (rename pin) == some (rename element)) =
      (circuit.prepared.evaluatorOf pin == some element) := by
    rw [evaluatorOf]
    cases circuit.prepared.evaluatorOf pin with
    | none => rfl
    | some owner => exact regroups.beq_rename owner element
  rw [bindingsFor, bindingsFor, evaluated, direction, copyReadied.isPin, readied.isPin,
    regroups.isPin_rename]
  split
  · rw [connections, List.filterMap_map, List.map_filterMap]
    refine List.filterMap_congr fun connection _ => ?_
    rw [Function.comp_apply, binding]
  · rfl

theorem perm_bindings {slots twins : List Nat} {shift : Nat → Nat}
    (shifts : Shifts rename slots twins shift) (element : Nat) :
    (copy.prepared.bindings twins (copy.prepared.inputConnections copy.prepared.adjacency)
      (rename element)).Perm
        ((circuit.prepared.bindings slots
          (circuit.prepared.inputConnections circuit.prepared.adjacency) element).map
            (Binding.moved shift)) := by
  obtain ⟨ids, twinIds⟩ := regroups.ids_prepared
  rw [bindings_eq, bindings_eq, ids, twinIds]
  exact regroups.perm_flatMap (regroups.bindingsFor_prepared valid copyValid shifts element)

theorem bindings_kept {slots twins : List Nat} {shift : Nat → Nat} {kept twinKept : Nat → Bool}
    (shifts : Shifts rename slots twins shift) (same : ∀ slot, twinKept (shift slot) = kept slot)
    {element : Nat} (ordered : ∀ first second, second < circuit.size → first < second →
      circuit.prepared.DrivenBy slots kept element first →
        circuit.prepared.DrivenBy slots kept element second → rename first < rename second) :
    (copy.prepared.bindings twins (copy.prepared.inputConnections copy.prepared.adjacency)
      (rename element)).filter (twinKept ·.source) =
        ((circuit.prepared.bindings slots
          (circuit.prepared.inputConnections circuit.prepared.adjacency) element).filter
            (kept ·.source)).map (Binding.moved shift) := by
  obtain ⟨ids, twinIds⟩ := regroups.ids_prepared
  rw [bindings_eq, bindings_eq, ids, twinIds, List.filter_flatMap, List.filter_flatMap]
  refine regroups.flatMap_ids (fun pin => ?_) fun first second bound less one other => ?_
  · rw [regroups.bindingsFor_prepared valid copyValid shifts, List.filter_map]
    exact congrArg _ (List.filter_congr fun binding _ => same binding.source)
  · have driven : ∀ {pin : Nat}, (circuit.prepared.bindingsFor slots element pin).filter
        (kept ·.source) ≠ [] → circuit.prepared.DrivenBy slots kept element pin := by
      intro pin shown
      obtain ⟨binding, member⟩ := List.exists_mem_of_ne_nil _ shown
      exact ⟨binding, List.mem_filter.mp member⟩
    exact ordered first second bound less (driven one) (driven other)

omit copyValid in
theorem rename_lt_of_drivenBy {slots : List Nat} {kept : Nat → Bool} {element first second : Nat}
    (notTag : ¬circuit.IsTag element) (bound : second < circuit.size) (less : first < second)
    (one : circuit.prepared.DrivenBy slots kept element first)
    (other : circuit.prepared.DrivenBy slots kept element second) :
    rename first < rename second := by
  have readied := regroups.readied
  have owned : ∀ {pin : Nat}, circuit.prepared.DrivenBy slots kept element pin →
      circuit.owner pin = some element := by
    rintro pin ⟨binding, member, _⟩
    unfold bindingsFor at member
    split at member
    next asked =>
      rw [readied.evaluatorOf] at asked
      simp only [Bool.and_eq_true, beq_iff_eq, simulated] at asked
      cases mapped : circuit.mappedTag pin with
      | none => simpa only [mapped, Option.none_or] using asked.1.2
      | some tag =>
          rw [mapped] at asked
          obtain rfl := Option.some.inj asked.1.2
          obtain ⟨signal, _, isMapped⟩ := Option.bind_eq_some_iff.mp mapped
          obtain ⟨container, held, isSignal⟩ := tagOf_eq_some.mp isMapped
          have parts := (validate_ok_iff.mp valid signal container held).2
          rw [isSignal] at parts
          exact absurd (parts.2 tag rfl) notTag
    next => contradiction
  exact regroups.ordered first second bound (zone_congr ((owned one).trans (owned other).symm)) less

end Regroups

/-- Whether the pins through which some cells drive a tag keep their order, for every tag. -/
def KeepsOrder (circuit : Circuit) (rename : Nat → Nat) (clock : Clock) (kept : Nat → Bool) :
    Prop :=
  ∀ tag first second, circuit.IsTag tag → second < circuit.size → first < second →
    circuit.prepared.DrivenBy (circuit.slots clock) kept tag first →
      circuit.prepared.DrivenBy (circuit.slots clock) kept tag second → rename first < rename second

def slotShift (circuit : Circuit) (rename : Nat → Nat) (copy : Circuit) (clock : Clock) :
    Nat → Nat :=
  shiftSlot rename (circuit.slots clock) (copy.slots clock)

namespace Regroups

variable (regroups : circuit.Regroups rename copy)

include regroups

theorem shifts (clock : Clock) : Shifts rename (circuit.slots clock) (copy.slots clock)
    (circuit.slotShift rename copy clock) :=
  shifts_shiftSlot regroups.injective (nodup_slots circuit clock) (regroups.perm_slots clock)

theorem slotShift_tag {slot : Nat} (early : slot < circuit.tagIds.length) :
    circuit.slotShift rename copy clock slot = slot := by
  obtain ⟨back, twinBack, front, twinFront⟩ := regroups.slots_front clock
  have unique := nodup_slots copy clock
  rw [twinFront] at unique
  rw [slotShift, front, twinFront]
  exact shiftSlot_front unique early

theorem twin_planOf {slot : Nat} {strategy : Strategy}
    (held : (circuit.prepared.planOf clock).strategies[slot]? = some strategy) :
    strategy.bindings = circuit.prepared.bindingsAs clock strategy.element strategy.behaviour ∧
      (copy.prepared.planOf clock).strategies[circuit.slotShift rename copy clock slot]? =
        some ⟨rename strategy.element, strategy.behaviour,
          copy.prepared.bindingsAs clock (rename strategy.element) strategy.behaviour⟩ := by
  have readied := regroups.readied
  have copyReadied := regroups.copyReadied
  have bound := (Array.getElem?_eq_some_iff.mp held).1
  rw [size_planOf] at bound
  have listed := List.getElem?_eq_getElem bound
  obtain ⟨behaviour, behaves, isHeld⟩ := strategy_planOf listed
  rw [held] at isHeld
  obtain rfl := Option.some.inj isHeld
  have twinListed := (regroups.shifts clock).getElem? slot
  rw [← readied.slots, ← copyReadied.slots, listed, Option.map_some] at twinListed
  obtain ⟨twinBehaviour, twinBehaves, twinHeld⟩ := strategy_planOf twinListed
  rw [copyReadied.behaviour, regroups.behaviour_rename, ← readied.behaviour, behaves] at twinBehaves
  obtain rfl := Option.some.inj twinBehaves
  exact ⟨rfl, twinHeld⟩

theorem size_strategies_rename (clock : Clock) :
    (copy.prepared.planOf clock).strategies.size =
      (circuit.prepared.planOf clock).strategies.size := by
  rw [size_planOf, size_planOf, regroups.readied.slots, regroups.copyReadied.slots,
    (regroups.perm_slots clock).length_eq, List.length_map]

theorem idle_planOf {slot : Nat}
    (idle : (circuit.prepared.planOf clock).strategies[slot]? = none) :
    (copy.prepared.planOf clock).strategies[circuit.slotShift rename copy clock slot]? = none := by
  have beyond := Array.getElem?_eq_none_iff.mp idle
  rw [size_planOf, regroups.readied.slots] at beyond
  have twinIdle := (regroups.shifts clock).getElem? slot
  rw [List.getElem?_eq_none beyond, Option.map_none, List.getElem?_eq_none_iff] at twinIdle
  rwa [Array.getElem?_eq_none_iff, size_planOf, regroups.copyReadied.slots]

theorem slot_tag {tag : ElementId} (isTag : circuit.IsTag tag) (clock : Clock) :
    ∃ slot < circuit.tagIds.length, (circuit.prepared.planOf clock).slot tag = some slot := by
  obtain ⟨back, _, front, _⟩ := regroups.slots_front clock
  have listed := mem_tagIds.mpr isTag
  refine ⟨circuit.tagIds.idxOf tag, List.idxOf_lt_length_of_mem listed, ?_⟩
  rw [slot_planOf, ← slots, regroups.readied.slots, front,
    idxOf?_of_mem (List.mem_append_left _ listed), List.idxOf_append_of_mem listed]

theorem tagIds_le (clock : Clock) : circuit.tagIds.length ≤
    (circuit.prepared.planOf clock).dependencies.table.size := by
  obtain ⟨back, _, front, _⟩ := regroups.slots_front clock
  rw [Plan.dependencies, Array.size_map, size_planOf, regroups.readied.slots, front,
    List.length_append]
  exact Nat.le_add_right _ _

theorem slot_rename (clock : Clock) (element : ElementId) :
    (copy.prepared.planOf clock).slot (rename element) =
      ((circuit.prepared.planOf clock).slot element).map
        (circuit.slotShift rename copy clock) := by
  rw [slot_planOf, slot_planOf, ← slots, ← slots, regroups.readied.slots,
    regroups.copyReadied.slots]
  exact (regroups.shifts clock).idxOf? element

variable (valid : circuit.validate = .ok ()) (copyValid : copy.validate = .ok ())

include valid copyValid

theorem moves_planOf {slot : Nat} {strategy : Strategy}
    (held : (circuit.prepared.planOf clock).strategies[slot]? = some strategy) :
    ∃ twin, (copy.prepared.planOf clock).strategies[circuit.slotShift rename copy clock slot]? =
        some twin ∧ twin.element = rename strategy.element ∧
      Strategy.Moves (circuit.slotShift rename copy clock) strategy twin := by
  have readied := regroups.readied
  have copyReadied := regroups.copyReadied
  obtain ⟨bindings, twinHeld⟩ := regroups.twin_planOf held
  refine ⟨_, twinHeld, rfl, rfl, ?_⟩
  dsimp only
  rw [bindings, bindingsAs, bindingsAs, readied.slots, copyReadied.slots]
  split
  · exact List.Perm.nil
  · exact regroups.perm_bindings valid copyValid (regroups.shifts clock) strategy.element

theorem computes_rename (clock : Clock) (slot : Nat) :
    (copy.prepared.planOf clock).computes (circuit.slotShift rename copy clock slot) =
      (circuit.prepared.planOf clock).computes slot := by
  rw [computes_planOf, computes_planOf]
  cases held : (circuit.prepared.planOf clock).strategies[slot]? with
  | none => rw [regroups.idle_planOf held]
  | some strategy =>
      obtain ⟨twin, twinHeld, _, moves⟩ := regroups.moves_planOf valid copyValid held
      rw [twinHeld, Option.any_some, Option.any_some, moves.isEvaluable]

theorem perm_sources (clock : Clock) (slot : Nat) :
    ((copy.prepared.planOf clock).sources (circuit.slotShift rename copy clock slot)).Perm
      (((circuit.prepared.planOf clock).sources slot).map
        (circuit.slotShift rename copy clock)) := by
  cases held : (circuit.prepared.planOf clock).strategies[slot]? with
  | none =>
      rw [Plan.sources, Plan.sources, held, regroups.idle_planOf held]
      exact List.Perm.nil
  | some strategy =>
      obtain ⟨twin, twinHeld, _, moves⟩ := regroups.moves_planOf valid copyValid held
      rw [Plan.sources_of_some held, Plan.sources_of_some twinHeld]
      exact moves.dependencies (regroups.shifts clock).injective

theorem permutes_planOf (clock : Clock) :
    (circuit.prepared.planOf clock).dependencies.Permutes (copy.prepared.planOf clock).dependencies
      (circuit.slotShift rename copy clock) := by
  have computes := regroups.computes_rename valid copyValid clock
  constructor
  case injective => exact (regroups.shifts clock).injective
  case size =>
    rw [Plan.dependencies, Plan.dependencies, Array.size_map, Array.size_map]
    exact regroups.size_strategies_rename clock
  case includes =>
    intro slot
    rw [Plan.includes_planOf, Plan.includes_planOf, computes]
  case of =>
    intro slot
    rw [Plan.of_planOf, Plan.of_planOf]
    refine ((regroups.perm_sources valid copyValid clock slot).filter _).trans (.of_eq ?_)
    rw [List.filter_map]
    exact congrArg _ (List.filter_congr fun source _ => computes source)

theorem of_kept {kept twinKept : Nat → Bool}
    (same : ∀ slot, twinKept (circuit.slotShift rename copy clock slot) = kept slot)
    (keeps : circuit.KeepsOrder rename clock kept) (slot : Nat) :
    ((copy.prepared.planOf clock).dependencies.of
      (circuit.slotShift rename copy clock slot)).filter twinKept =
        (((circuit.prepared.planOf clock).dependencies.of slot).filter kept).map
          (circuit.slotShift rename copy clock) := by
  have sources : ((copy.prepared.planOf clock).sources
      (circuit.slotShift rename copy clock slot)).filter twinKept =
        (((circuit.prepared.planOf clock).sources slot).filter kept).map
          (circuit.slotShift rename copy clock) := by
    cases held : (circuit.prepared.planOf clock).strategies[slot]? with
    | none =>
        rw [Plan.sources, Plan.sources, held, regroups.idle_planOf held]
        rfl
    | some strategy =>
        obtain ⟨bindings, twinHeld⟩ := regroups.twin_planOf held
        rw [Plan.sources_of_some held, Plan.sources_of_some twinHeld]
        refine Strategy.dependencies_kept (regroups.shifts clock).injective ?_
        dsimp only
        rw [bindings, bindingsAs, bindingsAs, regroups.readied.slots,
          regroups.copyReadied.slots]
        split
        next => rfl
        next =>
          refine regroups.bindings_kept valid copyValid (regroups.shifts clock) same ?_
          intro first second bound less one other
          by_cases isTag : circuit.IsTag strategy.element
          · exact keeps _ first second isTag bound less one other
          · exact regroups.rename_lt_of_drivenBy valid isTag bound less one other
  have computes := regroups.computes_rename valid copyValid clock
  rw [Plan.of_planOf, Plan.of_planOf, List.filter_comm, sources,
    List.filter_map, List.filter_comm]
  refine congrArg _ (congrArg _ (List.filter_congr fun source _ => computes source))

theorem tagSlots_rename (clock : Clock) :
    (List.range circuit.tagIds.length).filter (copy.prepared.planOf clock).dependencies.includes =
      ((List.range circuit.tagIds.length).filter
        (circuit.prepared.planOf clock).dependencies.includes).map
          (circuit.slotShift rename copy clock) := by
  have permutes := regroups.permutes_planOf valid copyValid clock
  have fixed : ∀ slot ∈ List.range circuit.tagIds.length,
      circuit.slotShift rename copy clock slot = slot := fun slot member =>
    regroups.slotShift_tag (List.mem_range.mp member)
  rw [List.map_congr_left fun slot member => fixed slot (List.mem_of_mem_filter member),
    List.map_id']
  refine List.filter_congr fun slot member => ?_
  rw [← permutes.includes, fixed slot member]

end Regroups

end Circuit

end RelayLogic
