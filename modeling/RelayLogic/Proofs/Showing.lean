import RelayLogic.Proofs.Simulating

/-!
What a plan shows of a circuit: a cell for each tag, and for each tag with signals the changes that
tell a new value. A plan goes on showing its circuit whatever its cells become.
-/

namespace RelayLogic

namespace Circuit

variable {circuit base : Circuit} {clock : Clock}

theorem IsTag.exists_initial {tag : ElementId} (isTag : circuit.IsTag tag) :
    ∃ initial, (tag, initial) ∈ circuit.tags := by
  obtain ⟨element, held, isTag⟩ := isTag
  cases kind : element.kind with
  | tag initial properties => exact ⟨initial, mem_collect.mpr ⟨element, held, by rw [kind]⟩⟩
  | _ => simp [kind, Kind.isTag] at isTag

theorem IsTag.mem_slots {tag : ElementId} (isTag : circuit.IsTag tag) (clock : Clock) :
    tag ∈ circuit.slots clock := by
  have behaves := isTag.hasBehaviour clock
  obtain ⟨element, held, _⟩ := isTag
  rw [slots_eq, List.mem_filter]
  exact ⟨List.mem_range.mpr (get?_lt held), behaves⟩

theorem sorted_collect (view : Element → Option α) :
    (circuit.collect view).Pairwise (·.1 < ·.1) := by
  refine List.pairwise_filterMap.mpr (List.pairwise_lt_range.imp fun less one isOne other isOther => ?_)
  obtain ⟨_, _, rfl⟩ := Option.map_eq_some_iff.mp isOne
  obtain ⟨_, _, rfl⟩ := Option.map_eq_some_iff.mp isOther
  exact less

theorem mem_signalsOfTag {signal tag : ElementId} :
    signal ∈ circuit.signalsOfTag tag ↔ circuit.tagOf signal = some tag := by
  rw [tagOf_eq_some, ← mem_signals]
  simp [signalsOfTag]

theorem sorted_signalsOfTag (tag : ElementId) : (circuit.signalsOfTag tag).Pairwise (· < ·) :=
  List.pairwise_map.mpr ((sorted_collect _).filter _)

theorem mem_boundTags {slots : List ElementId} {bound : BoundTag} :
    bound ∈ circuit.boundTags slots ↔ circuit.IsTag bound.tag ∧
      slots.idxOf? bound.tag = some bound.slot ∧ circuit.signalsOfTag bound.tag ≠ [] ∧
        bound.name = circuit.nameOf bound.tag ∧ bound.signals =
          (circuit.signalsOfTag bound.tag).map fun signal =>
            (signal, (circuit.get? signal).bind (·.block)) := by
  rw [boundTags, List.mem_filterMap]
  constructor
  · rintro ⟨⟨tag, initial⟩, listed, made⟩
    simp only at made
    split at made
    next slot found =>
      split at made
      next => contradiction
      next some =>
        cases made
        exact ⟨isTag_of_mem_tags listed, found, by simpa using some, rfl, rfl⟩
    next => contradiction
  · rintro ⟨isTag, found, some, named, signals⟩
    obtain ⟨initial, listed⟩ := isTag.exists_initial
    obtain ⟨tag, name, slot, _⟩ := bound
    simp only at found some named signals
    exact ⟨(tag, initial), listed, by simp [found, some, named, signals]⟩

theorem sorted_boundTags (slots : List ElementId) :
    (circuit.boundTags slots).Pairwise (·.tag < ·.tag) := by
  refine (sorted_collect _).filterMap _ fun one other less bound isBound next isNext => ?_
  have tagged : bound.tag = one.1 := by grind
  have nextTagged : next.tag = other.1 := by grind
  rwa [tagged, nextTagged]

namespace Inferred

variable (inferred : Inferred base circuit)

include inferred

theorem isTag_iff {tag : ElementId} : circuit.IsTag tag ↔ base.IsTag tag := by
  rw [← inferred.cleared, IsTag, IsTag, get?_clearInferred]
  cases circuit.get? tag with
  | none => simp
  | some element =>
      obtain ⟨name, kind, owner, children, evaluator, block⟩ := element
      cases kind <;> simp [clearElement, Kind.isTag]

theorem tagOf : circuit.tagOf = base.tagOf := by
  rw [← inferred.cleared, tagOf_clearInferred]

theorem block (id : ElementId) : (circuit.get? id).bind (·.block) = (base.get? id).bind (·.block) := by
  rw [← inferred.cleared, get?_clearInferred]
  cases circuit.get? id <;> rfl

end Inferred

end Circuit

namespace Plan

variable {circuit base : Circuit} {plan : Plan}

/-- Whether a plan has a cell for each tag of a circuit, and its bound tags are the tags with signals
mapped onto them. -/
structure Shows (circuit : Circuit) (plan : Plan) : Prop where
  cell : ∀ tag, circuit.IsTag tag → ∃ slot, plan.slot tag = some slot ∧ slot < plan.states.size
  bound : ∀ bound ∈ plan.boundTags, circuit.IsTag bound.tag ∧ plan.slot bound.tag = some bound.slot
  signals : ∀ bound ∈ plan.boundTags, ∀ signal block, (signal, block) ∈ bound.signals ↔
    circuit.tagOf signal = some bound.tag ∧ (circuit.get? signal).bind (·.block) = block
  mapped : ∀ signal tag, circuit.IsTag tag → circuit.tagOf signal = some tag →
    ∃ bound ∈ plan.boundTags, bound.tag = tag
  sorted : plan.boundTags.Pairwise (·.tag < ·.tag)
  sortedSignals : ∀ bound ∈ plan.boundTags, bound.signals.Pairwise (·.1 < ·.1)

theorem shows_planOf (circuit : Circuit) (clock : Clock) : (circuit.planOf clock).Shows circuit := by
  have placed : ∀ tag, circuit.IsTag tag →
      (circuit.slots clock).idxOf? tag = some ((circuit.slots clock).idxOf tag) :=
    fun tag isTag => idxOf?_of_mem (isTag.mem_slots clock)
  constructor
  case cell =>
    intro tag isTag
    refine ⟨(circuit.slots clock).idxOf tag, ?_, ?_⟩
    · rw [Circuit.slot_planOf, ← Circuit.slots, placed tag isTag]
    · rw [states_planOf, Array.size_map, Circuit.size_planOf]
      exact List.idxOf_lt_length_of_mem (isTag.mem_slots clock)
  case bound =>
    intro bound member
    obtain ⟨isTag, found, _⟩ := Circuit.mem_boundTags.mp member
    exact ⟨isTag, (Circuit.slot_planOf circuit clock _).trans found⟩
  case signals =>
    intro bound member signal block
    obtain ⟨_, _, _, _, signals⟩ := Circuit.mem_boundTags.mp member
    rw [signals, ← Circuit.mem_signalsOfTag]
    simp
  case mapped =>
    intro signal tag isTag tagged
    have some := List.ne_nil_of_mem (Circuit.mem_signalsOfTag.mpr tagged)
    have listed : ⟨tag, circuit.nameOf tag, (circuit.slots clock).idxOf tag,
        (circuit.signalsOfTag tag).map fun signal =>
          (signal, (circuit.get? signal).bind (·.block))⟩ ∈ (circuit.planOf clock).boundTags :=
      Circuit.mem_boundTags.mpr ⟨isTag, placed tag isTag, some, rfl, rfl⟩
    exact ⟨_, listed, rfl⟩
  case sorted => exact Circuit.sorted_boundTags _
  case sortedSignals =>
    intro bound member
    obtain ⟨_, _, _, _, signals⟩ := Circuit.mem_boundTags.mp member
    rw [signals]
    exact List.pairwise_map.mpr (Circuit.sorted_signalsOfTag _)

namespace Shows

variable (shows : plan.Shows circuit)

include shows

theorem congr {other : Plan} (bound : other.boundTags = plan.boundTags)
    (slot : other.slot = plan.slot) (size : other.states.size = plan.states.size) :
    other.Shows circuit := by
  constructor
  case cell => rw [slot, size]; exact shows.cell
  case bound => rw [bound, slot]; exact shows.bound
  case signals => rw [bound]; exact shows.signals
  case mapped => rw [bound]; exact shows.mapped
  case sorted => rw [bound]; exact shows.sorted
  case sortedSignals => rw [bound]; exact shows.sortedSignals

theorem evaluate : plan.evaluate.Shows circuit := by
  refine shows.congr ?_ (slot_evaluate plan) (evaluate_sizes plan).2
  rw [evaluate_rest plan]

theorem setValue {element : ElementId} {value : Tri} {written : Plan}
    (set : plan.setValue element value = .ok written) : written.Shows circuit := by
  obtain ⟨slot, _, rfl⟩ := setValue_eq set
  exact shows.congr rfl rfl Array.size_setIfInBounds

theorem cleared (inferred : Circuit.Inferred base circuit) : plan.Shows base := by
  obtain ⟨cell, bound, signals, mapped, sorted, sortedSignals⟩ := shows
  simp only [inferred.isTag_iff, inferred.tagOf, inferred.block] at cell bound signals mapped
  exact ⟨cell, bound, signals, mapped, sorted, sortedSignals⟩

theorem valued {tag : ElementId} (isTag : circuit.IsTag tag) :
    ∃ value, plan.value tag = some value := by
  obtain ⟨slot, placed, inside⟩ := shows.cell tag isTag
  exact ⟨plan.states[slot], by rw [value, placed, Option.bind_some, Array.getElem?_eq_getElem inside]⟩

theorem value_bound {bound : BoundTag} (member : bound ∈ plan.boundTags) :
    plan.value bound.tag = some (plan.states.getD bound.slot .unknown) := by
  obtain ⟨isTag, placed⟩ := shows.bound bound member
  obtain ⟨found, valued⟩ := shows.valued isTag
  rw [value, placed, Option.bind_some] at valued ⊢
  rw [Array.getD_eq_getD_getElem?, valued, Option.getD_some]

theorem lookup_observed {signal tag : ElementId} (isTag : circuit.IsTag tag)
    (tagged : circuit.tagOf signal = some tag) : plan.observed.lookup tag = plan.value tag := by
  obtain ⟨bound, member, rfl⟩ := shows.mapped signal tag isTag tagged
  rw [shows.value_bound member, List.lookup_eq_some_iff]
  obtain ⟨front, back, split⟩ := List.append_of_mem member
  have sorted := shows.sorted
  rw [split, List.pairwise_append] at sorted
  refine ⟨front.map _, back.map _, by rw [observed, split, List.map_append, List.map_cons], ?_⟩
  rintro _ earlier
  obtain ⟨other, isOther, rfl⟩ := List.mem_map.mp earlier
  have less := sorted.2.2 other isOther bound List.mem_cons_self
  simpa using less.ne'

end Shows

theorem tag_of_mem_changesOf {reported : List (ElementId × Tri)} {bound : BoundTag}
    {change : StateChange} (member : change ∈ plan.changesOf reported bound) :
    change.tag = bound.tag := by
  simp only [changesOf] at member
  split at member
  · contradiction
  · obtain ⟨_, _, rfl⟩ := List.mem_map.mp member
    rfl

theorem mem_changes {reported : List (ElementId × Tri)} {change : StateChange} :
    change ∈ plan.changes reported ↔ ∃ bound ∈ plan.boundTags, bound.tag = change.tag ∧
      (change.signal, change.block) ∈ bound.signals ∧
        plan.states.getD bound.slot .unknown = change.value ∧
          reported.lookup bound.tag ≠ some change.value := by
  obtain ⟨block, signal, tag, value⟩ := change
  simp only [changes, changesOf, List.mem_flatMap]
  refine exists_congr fun bound => and_congr_right fun _ => ?_
  generalize plan.states.getD bound.slot .unknown = cell
  split
  next told =>
    simp only [List.not_mem_nil, false_iff]
    rintro ⟨_, _, rfl, untold⟩
    exact untold told
  next untold =>
    simp only [List.mem_map, Prod.exists, StateChange.mk.injEq]
    constructor
    · rintro ⟨_, _, listed, rfl, rfl, rfl, rfl⟩
      exact ⟨rfl, listed, rfl, untold⟩
    · rintro ⟨rfl, listed, rfl, _⟩
      exact ⟨_, _, listed, rfl, rfl, rfl, rfl⟩

/-- What a cycle tells of a circuit: the tags that it leaves with another value than the cycle
before, or all tags if there was none, once for each signal that is mapped onto them. -/
structure Tells (circuit : Circuit) (before : Option Plan) (plan : Plan)
    (changes : List StateChange) : Prop where
  mentions : ∀ signal, (∃ change ∈ changes, change.signal = signal) ↔
    ∃ tag, circuit.IsTag tag ∧ circuit.tagOf signal = some tag ∧
      ∀ earlier ∈ before, earlier.value tag ≠ plan.value tag
  current : ∀ change ∈ changes, circuit.tagOf change.signal = some change.tag ∧
    plan.value change.tag = some change.value ∧
      (circuit.get? change.signal).bind (·.block) = change.block
  once : (changes.map (·.signal)).Nodup
  ordered : changes.Pairwise fun one other =>
    one.tag < other.tag ∨ one.tag = other.tag ∧ one.signal < other.signal

def lastObserved (before : Option Plan) : List (ElementId × Tri) :=
  (before.map observed).getD []

theorem lookup_lastObserved {before : Option Plan}
    (showed : ∀ earlier ∈ before, earlier.Shows circuit) {signal tag : ElementId}
    (isTag : circuit.IsTag tag) (tagged : circuit.tagOf signal = some tag) (value : Tri) :
    (lastObserved before).lookup tag ≠ some value ↔
      ∀ earlier ∈ before, earlier.value tag ≠ some value := by
  cases before with
  | none => simp [lastObserved]
  | some earlier =>
      have same := (showed earlier rfl).lookup_observed isTag tagged
      simp [lastObserved, same]

theorem ordered_changes (shows : plan.Shows circuit) (reported : List (ElementId × Tri)) :
    (plan.changes reported).Pairwise fun one other =>
      one.tag < other.tag ∨ one.tag = other.tag ∧ one.signal < other.signal := by
  refine List.pairwise_flatMap.mpr ⟨fun bound member => ?_, shows.sorted.imp ?_⟩
  · simp only [changesOf]
    split
    · exact List.Pairwise.nil
    · exact List.pairwise_map.mpr ((shows.sortedSignals bound member).imp fun less =>
        Or.inr ⟨rfl, less⟩)
  · intro bound next less one isOne other isOther
    rw [tag_of_mem_changesOf isOne, tag_of_mem_changesOf isOther]
    exact Or.inl less

theorem Shows.current {before : Option Plan} (shows : plan.Shows circuit)
    (showed : ∀ earlier ∈ before, earlier.Shows circuit) {change : StateChange}
    (member : change ∈ plan.changes (lastObserved before)) :
    circuit.IsTag change.tag ∧ circuit.tagOf change.signal = some change.tag ∧
      plan.value change.tag = some change.value ∧
        (circuit.get? change.signal).bind (·.block) = change.block ∧
          ∀ earlier ∈ before, earlier.value change.tag ≠ some change.value := by
  obtain ⟨bound, listed, tag, maps, cell, untold⟩ := mem_changes.mp member
  obtain ⟨tagged, block⟩ := (shows.signals bound listed _ _).mp maps
  have isTag := (shows.bound bound listed).1
  have value := shows.value_bound listed
  rw [cell] at value
  rw [← tag]
  exact ⟨isTag, tagged, value, block, (lookup_lastObserved showed isTag tagged _).mp untold⟩

theorem Shows.tells {before : Option Plan} (shows : plan.Shows circuit)
    (showed : ∀ earlier ∈ before, earlier.Shows circuit) :
    Tells circuit before plan (plan.changes (lastObserved before)) := by
  have ordered := ordered_changes shows (lastObserved before)
  constructor
  case mentions =>
    intro signal
    constructor
    · rintro ⟨change, member, rfl⟩
      obtain ⟨isTag, tagged, value, _, news⟩ := shows.current showed member
      exact ⟨change.tag, isTag, tagged, value ▸ news⟩
    · rintro ⟨tag, isTag, tagged, news⟩
      obtain ⟨bound, listed, rfl⟩ := shows.mapped signal tag isTag tagged
      rw [shows.value_bound listed] at news
      have maps := (shows.signals bound listed signal _).mpr ⟨tagged, rfl⟩
      have untold := (lookup_lastObserved showed isTag tagged _).mpr news
      have member : ⟨(circuit.get? signal).bind (·.block), signal, bound.tag,
          plan.states.getD bound.slot .unknown⟩ ∈ plan.changes (lastObserved before) :=
        mem_changes.mpr ⟨bound, listed, rfl, maps, rfl, untold⟩
      exact ⟨_, member, rfl⟩
  case current =>
    intro change member
    obtain ⟨_, tagged, value, block, _⟩ := shows.current showed member
    exact ⟨tagged, value, block⟩
  case once =>
    refine List.pairwise_map.mpr (ordered.imp_of_mem fun {one other} isOne isOther before same => ?_)
    have tagged := (shows.current showed isOne).2.1
    rw [same, (shows.current showed isOther).2.1] at tagged
    rcases before with less | ⟨_, less⟩
    · exact less.ne' (Option.some.inj tagged)
    · exact less.ne same
  case ordered => exact ordered

end Plan

end RelayLogic
