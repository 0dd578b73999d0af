import RelayLogic.Proofs.Pairing
import RelayLogic.Proofs.Safety
import RelayLogic.Proofs.Sparing

/-!
Plans of circuits to which something was added. What was there before keeps its slots, its bindings
and its place in the order of evaluation; what was added comes after it.
-/

namespace RelayLogic

def Circuit.blockOf (circuit : Circuit) (id : ElementId) : Option BlockRef :=
  (circuit.get? id).bind (·.block)

def BoundTag.relabel (bound : BoundTag) (circuit : Circuit) : BoundTag :=
  { bound with signals := bound.signals.map fun entry => (entry.1, circuit.blockOf entry.1) }

namespace Dependencies

variable {small large : Dependencies}

/-- Whether the first nodes of a table are those of a smaller one, and depend on each other alone. -/
structure Heads (small large : Dependencies) : Prop where
  size : small.table.size ≤ large.table.size
  includes : ∀ node < small.table.size, large.includes node = small.includes node
  of : ∀ node < small.table.size, large.of node = small.of node

namespace Heads

variable (heads : small.Heads large)

include heads

theorem visit {fuel : Nat} {path : List Nat} (schedule : Schedule) {node : Nat}
    (enough : small.table.size ≤ fuel + path.length) (unique : (node :: path).Nodup)
    (included : ∀ other ∈ node :: path, small.includes other) (more : Nat) :
    large.visit (fuel + more) path schedule node = small.visit fuel path schedule node := by
  induction fuel generalizing path schedule node with
  | zero =>
      -- The path would hold every node of the small table, so none is left to be visited.
      have within : node :: path ⊆ List.range small.table.size := fun other member =>
        List.mem_range.mpr (includes_lt (included other member))
      have bound := (unique.subperm within).length_le
      simp only [List.length_cons, List.length_range] at bound
      omega
  | succ fuel ih =>
      have bound := includes_lt (included node List.mem_cons_self)
      have followed : ∀ schedule dependency, dependency ∈ small.of node →
          large.follow (fuel + more) (node :: path) schedule dependency =
            small.follow fuel (node :: path) schedule dependency := by
        intro schedule dependency member
        unfold follow
        split
        · rfl
        next fresh =>
          split
          · rfl
          · refine ih schedule ?_ (List.nodup_cons.mpr ⟨fresh, unique⟩) ?_
            · rw [List.length_cons]
              omega
            · exact List.forall_mem_cons.mpr ⟨includes_of_mem_of member, included⟩
      rw [Nat.add_right_comm, visit_succ, visit_succ, heads.of node bound,
        List.foldl_ext _ _ schedule followed]

theorem early : large.early small.table.size = small.schedule := by
  obtain ⟨more, same⟩ := Nat.exists_eq_add_of_le heads.size
  have roots : (List.range small.table.size).filter large.includes =
      (List.range small.table.size).filter small.includes :=
    List.filter_congr fun node member => heads.includes node (List.mem_range.mp member)
  rw [schedule_eq_early, Dependencies.early, Dependencies.early, roots]
  refine List.foldl_ext _ _ _ fun schedule root member => ?_
  have included := (List.mem_filter.mp member).2
  rw [place, place, same,
    heads.visit schedule (by simp) (List.nodup_singleton root) (by simpa using included)]

theorem order : Prolongs (small.table.size ≤ ·) small.schedule.order large.schedule.order := by
  obtain ⟨later, whole⟩ := prefix_early heads.size
  rw [heads.early] at whole
  refine ⟨later, whole.symm, fun node member => ?_⟩
  by_contra inside
  have listed : node ∈ large.schedule.order := whole ▸ List.mem_append_right _ member
  rw [large.schedule_placed.2, heads.includes node (Nat.lt_of_not_le inside),
    ← small.schedule_placed.2] at listed
  have unique := large.schedule_placed.1.unique
  rw [← whole] at unique
  exact (List.nodup_append.mp unique).2.2 node listed node member rfl

end Heads

end Dependencies

namespace Plan

variable {plan other : Plan} {circuit whole : Circuit} {clock : Clock}

theorem Indexed.computes (indexed : plan.Indexed circuit clock) (slot : Nat) :
    plan.computes slot = plan.strategies[slot]?.any (·.isEvaluable) := by
  rw [Plan.computes, indexed.flags, Array.getD_eq_getD_getElem?, Array.getElem?_map]
  cases plan.strategies[slot]? <;> rfl

theorem Indexed.evaluableSize (indexed : plan.Indexed circuit clock) :
    plan.evaluable.size = plan.strategies.size := by
  rw [indexed.flags, Array.size_map]

theorem Indexed.sources_lt (indexed : plan.Indexed circuit clock) {slot source : Nat}
    (reads : source ∈ plan.sources slot) : source < plan.size := by
  unfold sources at reads
  split at reads
  next strategy held =>
    rw [Strategy.dependencies, List.mem_eraseDups] at reads
    obtain ⟨binding, listed, rfl⟩ := List.mem_map.mp reads
    exact indexed.bindings strategy (Array.mem_of_getElem? held) binding listed
  next => contradiction

/-- What a plan begins with is put in order by the same dependencies. -/
theorem heads_dependencies (indexed : plan.Indexed circuit clock)
    (otherIndexed : other.Indexed whole clock) (fewer : plan.size ≤ other.size)
    (same : ∀ slot < plan.size, other.strategies[slot]? = plan.strategies[slot]?) :
    plan.dependencies.Heads other.dependencies := by
  have sizes : ∀ plan : Plan, plan.dependencies.table.size = plan.size := fun _ => Array.size_map
  have computes : ∀ slot < plan.size, other.computes slot = plan.computes slot := by
    intro slot bound
    rw [indexed.computes, otherIndexed.computes, same slot bound]
  constructor
  case size => rwa [sizes, sizes]
  case includes =>
    intro slot bound
    rw [sizes] at bound
    rw [includes_dependencies indexed.evaluableSize,
      includes_dependencies otherIndexed.evaluableSize, computes slot bound]
  case of =>
    intro slot bound
    rw [sizes] at bound
    have sources : other.sources slot = plan.sources slot := by
      rw [Plan.sources, Plan.sources, same slot bound]
    rw [of_dependencies indexed.evaluableSize, of_dependencies otherIndexed.evaluableSize, sources]
    exact List.filter_congr fun source reads => computes source (indexed.sources_lt reads)

end Plan

namespace Circuit

variable {part whole : Circuit} {clock : Clock}

theorem idxOf?_append (front back : List Nat) (item : Nat) : (front ++ back).idxOf? item =
    (front.idxOf? item).or ((back.idxOf? item).map (· + front.length)) :=
  List.findIdx?_append

theorem Sound.pinned (sound : part.Sound Rules.any) : part.Pinned := by
  refine sound.tree.pinned fun owner kind isSignal carries => ?_
  cases owner <;> cases kind <;>
    first
    | rfl
    | simp [Kind.Carries, Rules.any, Kind.isContainer, Kind.isSignal] at isSignal carries

theorem Sound.readied (sound : part.Sound Rules.any) : part.Readied part.prepared :=
  sound.tree.readied sound.pinned sound.settled

theorem blockOf_prepared (circuit : Circuit) : circuit.prepared.blockOf = circuit.blockOf := by
  have blind : Blind Element.block := by
    refine ⟨fun element => ?_, fun _ _ => rfl⟩
    obtain ⟨name, kind, owner, children, evaluator, block⟩ := element
    cases kind <;> rfl
  exact funext (blind.prepared circuit)

theorem Readied.signals (readied : part.Readied part.prepared) :
    part.prepared.signals = part.signals := by
  refine Blind.collect_prepared ⟨fun element => ?_, fun _ _ => rfl⟩ readied.size
  obtain ⟨name, kind, owner, children, evaluator, block⟩ := element
  cases kind <;> rfl

def boundTag? (circuit : Circuit) (slots : List ElementId) (tag : ElementId) : Option BoundTag :=
  ((slots.idxOf? tag).filter fun _ => !(circuit.signalsOfTag tag).isEmpty).map fun slot =>
    ⟨tag, circuit.nameOf tag, slot,
      (circuit.signalsOfTag tag).map fun signal => (signal, circuit.blockOf signal)⟩

theorem tag_of_boundTag? {slots : List ElementId} {tag : ElementId} {bound : BoundTag}
    (made : part.boundTag? slots tag = some bound) : bound.tag = tag := by
  obtain ⟨slot, _, rfl⟩ := Option.map_eq_some_iff.mp made
  rfl

theorem boundTags_planOf (circuit : Circuit) (clock : Clock) :
    (circuit.planOf clock).boundTags =
      circuit.tags.filterMap fun entry => circuit.boundTag? (circuit.slots clock) entry.1 := by
  rw [planOf, boundTags]
  refine List.filterMap_congr fun entry _ => ?_
  simp only [boundTag?, slots]
  cases ((circuit.strategies clock).map (·.element)).idxOf? entry.1 with
  | none => rfl
  | some slot =>
      simp only [Option.filter_some]
      cases (circuit.signalsOfTag entry.1).isEmpty <;> rfl

theorem lt_of_tagOf (valid : part.validate = .ok ()) {signal tag : ElementId}
    (tagged : part.tagOf signal = some tag) : tag < part.size := by
  obtain ⟨element, held, isSignal⟩ := tagOf_eq_some.mp tagged
  have parts := (validate_ok_iff.mp valid signal element held).2
  rw [isSignal] at parts
  obtain ⟨_, tagHeld, _⟩ := parts.2 tag rfl
  exact get?_lt tagHeld

theorem lt_of_mem_slots {element : Nat} (member : element ∈ part.slots clock) :
    element < part.size := by
  rw [slots_eq] at member
  exact List.mem_range.mp (List.mem_filter.mp member).1

theorem Enlarges.tagOf (enlarges : part.Enlarges whole) {signal : Nat}
    (bound : signal < part.size) : whole.tagOf signal = part.tagOf signal := by
  obtain ⟨element, twin, held, twinHeld, kept⟩ := enlarges.twin bound
  refine Option.ext fun tag => ?_
  simp only [tagOf_eq_some, held, twinHeld, Option.some.injEq, exists_eq_left', kept.kind]

namespace Annexed

variable (annexed : part.Annexed whole)

include annexed

theorem simulated {pin : Nat} (bound : pin < part.size) :
    whole.simulated pin = part.simulated pin := by
  rw [Circuit.simulated, Circuit.simulated, mappedTag, mappedTag, annexed.owner bound]
  cases owned : part.owner pin with
  | none => rfl
  | some owner =>
      rw [Option.bind_some, Option.bind_some,
        annexed.tagOf (annexed.sound.tree.lt_of_owner owned)]

theorem simulated_lt {pin element : Nat} (isSimulated : part.simulated pin = some element) :
    element < part.size := by
  rw [Circuit.simulated, Option.or_eq_some_iff] at isSimulated
  rcases isSimulated with mapped | ⟨_, owned⟩
  · obtain ⟨signal, _, tagged⟩ := Option.bind_eq_some_iff.mp mapped
    exact lt_of_tagOf annexed.valid tagged
  · exact annexed.sound.tree.lt_of_owner owned

theorem simulated_new {pin element : Nat} (beyond : part.size ≤ pin)
    (isSimulated : whole.simulated pin = some element) :
    part.size ≤ element ∨ part.IsContainer element := by
  have ownerOf : ∀ {owner}, whole.owner pin = some owner →
      part.size ≤ owner ∨ part.IsContainer owner := by
    intro owner owned
    obtain ⟨held, isHeld, isOwner⟩ := Option.bind_eq_some_iff.mp owned
    exact (annexed.apart pin held beyond isHeld).owner owner isOwner
  rw [Circuit.simulated, Option.or_eq_some_iff] at isSimulated
  rcases isSimulated with mapped | ⟨_, owned⟩
  · obtain ⟨signal, owned, tagged⟩ := Option.bind_eq_some_iff.mp mapped
    obtain ⟨held, isHeld, isSignal⟩ := tagOf_eq_some.mp tagged
    rcases ownerOf owned with signalBeyond | contains
    · have targets := (annexed.apart signal held signalBeyond isHeld).targets
      exact Or.inl (targets element (by simp [isSignal, Kind.targets]))
    · have bound : signal < part.size := by
        obtain ⟨_, containerHeld, _⟩ := contains
        exact get?_lt containerHeld
      obtain ⟨container, found, contains⟩ := (annexed.isContainer_iff bound).mpr contains
      rw [Option.some.inj (found.symm.trans isHeld), isSignal] at contains
      contradiction
  · exact ownerOf owned

theorem behaviour? {id : Nat} (bound : id < part.size) :
    whole.behaviour? clock id = part.behaviour? clock id :=
  annexed.bind_get? (fun _ _ kept => by rw [kept.kind]) bound

theorem slots (clock : Clock) : Prolongs (part.size ≤ ·) (part.slots clock) (whole.slots clock) := by
  have behaviours : Prolongs (part.size ≤ ·.1)
      (part.collect fun element => Strategy.behaviourOf? clock element.kind)
      (whole.collect fun element => Strategy.behaviourOf? clock element.kind) :=
    annexed.collect fun _ _ kept => by rw [kept.kind]
  rw [Circuit.slots, Circuit.slots, Circuit.strategies, Circuit.strategies, List.map_map,
    List.map_map]
  exact behaviours.map fun _ _ beyond => beyond

theorem idxOf? {element : Nat} (bound : element < part.size) :
    (whole.slots clock).idxOf? element = (part.slots clock).idxOf? element := by
  obtain ⟨later, slots, beyond⟩ := annexed.slots clock
  have absent : later.idxOf? element = none := by
    rw [List.idxOf?_eq_none_iff]
    exact fun member => Nat.not_lt_of_le (beyond element member) bound
  rw [slots, idxOf?_append, absent, Option.map_none, Option.or_none]

theorem le_idxOf? {element slot : Nat} (beyond : part.size ≤ element)
    (placed : (whole.slots clock).idxOf? element = some slot) :
    (part.slots clock).length ≤ slot := by
  obtain ⟨later, slots, _⟩ := annexed.slots clock
  have absent : (part.slots clock).idxOf? element = none := by
    rw [List.idxOf?_eq_none_iff]
    exact fun member => Nat.not_lt_of_le beyond (lt_of_mem_slots member)
  rw [slots, idxOf?_append, absent, Option.none_or, Option.map_eq_some_iff] at placed
  obtain ⟨index, _, rfl⟩ := placed
  exact Nat.le_add_left _ _

theorem direction_prepared {pin : Nat} (bound : pin < part.size) :
    whole.prepared.direction pin = part.prepared.direction pin := by
  rw [annexed.sound.readied.direction, annexed.wholeSound.readied.direction,
    annexed.resolveDirections bound]

theorem connections {pin : Nat} (bound : pin < part.size) :
    whole.prepared.connections whole.prepared.adjacency pin =
      part.prepared.connections part.prepared.adjacency pin := by
  rw [Circuit.connections, Circuit.connections, annexed.sound.readied.adjacency,
    annexed.wholeSound.readied.adjacency]
  refine (annexed.confines annexed.wired).walk (fun other inside => ?_) bound
  rw [annexed.direction_prepared inside]

theorem connections_lt {pin : Nat} {connection : Connection}
    (member : connection ∈ part.prepared.connections part.prepared.adjacency pin) :
    connection.pin < part.size := by
  rw [Circuit.connections, annexed.sound.readied.adjacency] at member
  exact lt_size_of_isPin (annexed.wired.way (Adjacency.walk_sound member).2)

theorem binding? {connection : Connection} (bound : connection.pin < part.size) :
    whole.prepared.binding? (whole.slots clock) connection =
      part.prepared.binding? (part.slots clock) connection := by
  rw [Circuit.binding?, Circuit.binding?, annexed.direction_prepared bound,
    annexed.sound.readied.evaluatorOf, annexed.wholeSound.readied.evaluatorOf,
    annexed.simulated bound]
  split
  next =>
    cases evaluated : part.simulated connection.pin with
    | none => rfl
    | some element =>
        rw [Option.bind_some, Option.bind_some, annexed.idxOf? (annexed.simulated_lt evaluated)]
  next => rfl

theorem bindingsFor {element pin : Nat} (bound : pin < part.size) :
    whole.prepared.bindingsFor (whole.slots clock) element pin =
      part.prepared.bindingsFor (part.slots clock) element pin := by
  rw [Circuit.bindingsFor, Circuit.bindingsFor, annexed.sound.readied.isPin,
    annexed.wholeSound.readied.isPin, annexed.isPin bound, annexed.sound.readied.evaluatorOf,
    annexed.wholeSound.readied.evaluatorOf, annexed.simulated bound,
    annexed.direction_prepared bound, annexed.connections bound]
  split
  · exact List.filterMap_congr fun connection member =>
      annexed.binding? (annexed.connections_lt member)
  · rfl

theorem bindingsFor_new {element pin : Nat} (bound : element < part.size)
    (owns : ¬part.IsContainer element) (beyond : part.size ≤ pin) :
    whole.prepared.bindingsFor (whole.slots clock) element pin = [] := by
  rw [Circuit.bindingsFor, if_neg]
  intro asked
  rw [annexed.wholeSound.readied.evaluatorOf] at asked
  simp only [Bool.and_eq_true, beq_iff_eq] at asked
  rcases annexed.simulated_new beyond asked.1.2 with away | contains
  · exact Nat.not_lt_of_le away bound
  · exact owns contains

theorem bindingsAs {element : Nat} (bound : element < part.size)
    (owns : ¬part.IsContainer element) (behaviour : Behaviour) :
    whole.prepared.bindingsAs clock element behaviour =
      part.prepared.bindingsAs clock element behaviour := by
  rw [Circuit.bindingsAs, Circuit.bindingsAs, annexed.sound.readied.slots,
    annexed.wholeSound.readied.slots]
  have partIds : part.prepared.ids = part.ids := congrArg List.range annexed.sound.readied.size
  have wholeIds : whole.prepared.ids = whole.ids :=
    congrArg List.range annexed.wholeSound.readied.size
  split
  · rfl
  · rw [bindings_eq, bindings_eq, partIds, wholeIds]
    exact annexed.ids.flatMap_eq
      (fun pin member => annexed.bindingsFor (List.mem_range.mp member))
      fun pin _ beyond => annexed.bindingsFor_new bound owns beyond

theorem strategies {slot : Nat} (bound : slot < (part.prepared.planOf clock).size) :
    (whole.prepared.planOf clock).strategies[slot]? =
      (part.prepared.planOf clock).strategies[slot]? := by
  have readied := annexed.sound.readied
  have wholeReadied := annexed.wholeSound.readied
  obtain ⟨later, slots, _⟩ := annexed.slots clock
  rw [Plan.size, size_planOf] at bound
  have listed := List.getElem?_eq_getElem bound
  generalize (part.prepared.slots clock)[slot] = element at listed
  have wholeListed : (whole.prepared.slots clock)[slot]? = some element := by
    rw [readied.slots] at listed bound
    rw [wholeReadied.slots, slots, List.getElem?_append_left bound, listed]
  obtain ⟨behaviour, behaves, held⟩ := strategy_planOf listed
  obtain ⟨wholeBehaviour, wholeBehaves, wholeHeld⟩ := strategy_planOf wholeListed
  rw [readied.slots] at listed
  have inside : element < part.size := lt_of_mem_slots (List.mem_of_getElem? listed)
  rw [readied.behaviour] at behaves
  rw [wholeReadied.behaviour, annexed.behaviour? inside, behaves] at wholeBehaves
  obtain rfl := Option.some.inj wholeBehaves
  have owns : ¬part.IsContainer element := by
    rintro ⟨container, found, contains⟩
    rw [Circuit.behaviour?, found, Option.bind_some] at behaves
    cases kind : container.kind <;>
      simp [kind, Kind.isContainer, Strategy.behaviourOf?] at contains behaves
  rw [held, wholeHeld, annexed.bindingsAs inside owns]

theorem size_planOf_le (clock : Clock) :
    (part.prepared.planOf clock).size ≤ (whole.prepared.planOf clock).size := by
  rw [Plan.size, Plan.size, size_planOf, size_planOf, annexed.sound.readied.slots,
    annexed.wholeSound.readied.slots]
  exact (annexed.slots clock).length_le

theorem signalsOfTag {tag : ElementId} (bound : tag < part.size) :
    whole.prepared.signalsOfTag tag = part.prepared.signalsOfTag tag := by
  have signals : Prolongs (part.size ≤ ·.1) part.signals whole.signals :=
    annexed.collect fun _ _ kept => by rw [kept.kind]
  rw [Circuit.signalsOfTag, Circuit.signalsOfTag, annexed.sound.readied.signals,
    annexed.wholeSound.readied.signals]
  refine congrArg _ (signals.filter_eq (fun _ _ => rfl) ?_)
  rintro ⟨signal, mapped⟩ listed beyond
  obtain ⟨element, held, isSignal⟩ := mem_signals.mp listed
  have targets := (annexed.apart signal element beyond held).targets
  rw [isSignal] at targets
  by_contra onto
  obtain rfl : mapped = some tag := by simpa using onto
  exact Nat.not_lt_of_le (targets tag (by simp [Kind.targets])) bound

theorem nameOf {id : ElementId} (bound : id < part.size) : whole.nameOf id = part.nameOf id := by
  obtain ⟨element, twin, held, twinHeld, kept⟩ := annexed.twin bound
  simp only [Circuit.nameOf, held, twinHeld, kept.name]

theorem boundTag? {tag : ElementId} (bound : tag < part.size) :
    whole.prepared.boundTag? (whole.prepared.slots clock) tag =
      (part.prepared.boundTag? (part.prepared.slots clock) tag).map (·.relabel whole) := by
  have readied := annexed.sound.readied
  have wholeReadied := annexed.wholeSound.readied
  rw [Circuit.boundTag?, Circuit.boundTag?, wholeReadied.slots, readied.slots, wholeReadied.nameOf,
    readied.nameOf, annexed.idxOf? bound, annexed.signalsOfTag bound, annexed.nameOf bound,
    blockOf_prepared, blockOf_prepared]
  cases (part.slots clock).idxOf? tag with
  | none => rfl
  | some slot =>
      simp only [Option.filter_some]
      split
      · simp [BoundTag.relabel]
      · rfl

theorem boundTags (clock : Clock) : Prolongs (part.size ≤ ·.tag)
    ((part.prepared.planOf clock).boundTags.map (·.relabel whole))
    (whole.prepared.planOf clock).boundTags := by
  have tags : Prolongs (part.size ≤ ·.1) part.tags whole.tags :=
    annexed.collect fun _ _ kept => by rw [kept.kind]
  rw [boundTags_planOf, boundTags_planOf, annexed.sound.readied.tags,
    annexed.wholeSound.readied.tags, List.map_filterMap]
  refine tags.filterMap (fun entry member => ?_) fun entry _ beyond bound made => ?_
  · obtain ⟨_, held, _⟩ := mem_collect.mp member
    exact annexed.boundTag? (get?_lt held)
  · rw [tag_of_boundTag? made]
    exact beyond

end Annexed

end Circuit

end RelayLogic
