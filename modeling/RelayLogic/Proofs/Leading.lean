import RelayLogic.Proofs.Appending

/-!
Cycles of plans that begin with another plan. What is new reads and writes slots of its own, so the
slots that were there before hold after every cycle what they would hold without it, and the same
changes are told of the tags that were there before.
-/

namespace RelayLogic

def StateChange.relabel (change : StateChange) (circuit : Circuit) : StateChange :=
  { change with block := circuit.blockOf change.signal }

namespace Plan

variable {plan other : Plan}

/-- Whether a plan is as far as another one and begins with the slots of that one, which read each
other alone. -/
structure Leads (plan other : Plan) : Prop where
  clock : other.clock = plan.clock
  reads : ∀ slot, ∀ source ∈ plan.sources slot, source < plan.size
  strategies : ∀ slot < plan.size, other.strategies[slot]? = plan.strategies[slot]?
  states : ∀ slot < plan.size, other.states[slot]? = plan.states[slot]?

namespace Leads

variable (leads : plan.Leads other)

include leads

theorem write {slot : Nat} (value : Tri) :
    { plan with states := plan.states.setIfInBounds slot value }.Leads
      { other with states := other.states.setIfInBounds slot value } where
  clock := leads.clock
  reads := leads.reads
  strategies := leads.strategies
  states index bound := getElem?_setIfInBounds_congr .rfl (leads.states index bound) value

theorem write_new {slot : Nat} (beyond : plan.size ≤ slot) (value : Tri) :
    plan.Leads { other with states := other.states.setIfInBounds slot value } where
  clock := leads.clock
  reads := leads.reads
  strategies := leads.strategies
  states index bound := by
    have different : slot ≠ index := by omega
    exact (Array.getElem?_setIfInBounds_ne different).trans (leads.states index bound)

theorem calculate {slot : Nat} (bound : slot < plan.size) :
    (plan.calculate slot).Leads (other.calculate slot) := by
  have held := Array.getElem?_eq_getElem bound
  generalize plan.strategies[slot] = strategy at held
  have otherHeld := (leads.strategies slot bound).trans held
  have same : strategy.calculate other.states other.clock.cycle =
      strategy.calculate plan.states plan.clock.cycle := by
    -- The cells may differ beyond the slots that the strategy reads.
    rw [leads.clock]
    refine Strategy.calculate_congr _ fun source reads => ?_
    rw [← sources_of_some held] at reads
    rw [Array.getD_eq_getD_getElem?, Array.getD_eq_getD_getElem?,
      leads.states source (leads.reads slot source reads)]
  have size : (plan.calculate slot).size = plan.size := (calculate_sizes plan slot).1
  constructor
  case clock =>
    rw [calculate_rest other, calculate_rest plan]
    exact leads.clock
  case reads =>
    intro reader source
    rw [calculate_sources, size]
    exact leads.reads reader source
  case strategies =>
    intro index inside
    rw [size] at inside
    rw [calculate_of_some held, calculate_of_some otherHeld, same]
    exact getElem?_setIfInBounds_congr .rfl (leads.strategies index inside) _
  case states =>
    intro index inside
    rw [size] at inside
    rw [calculate_of_some held, calculate_of_some otherHeld, same]
    exact getElem?_setIfInBounds_congr .rfl (leads.states index inside) _

theorem sweep {slots : List Nat} (within : ∀ slot ∈ slots, slot < plan.size) :
    (plan.sweep slots).Leads (other.sweep slots) := by
  induction slots generalizing plan other with
  | nil => exact leads
  | cons slot slots ih =>
      obtain ⟨first, rest⟩ := List.forall_mem_cons.mp within
      have size : (plan.calculate slot).size = plan.size := (calculate_sizes plan slot).1
      rw [sweep_cons, sweep_cons]
      exact ih (leads.calculate first) (by rwa [size])

theorem sweep_new {slots : List Nat} (beyond : ∀ slot ∈ slots, plan.size ≤ slot) :
    plan.Leads (other.sweep slots) := by
  have absent : ∀ slot < plan.size, slot ∉ slots := fun slot bound member =>
    Nat.not_lt_of_le (beyond slot member) bound
  constructor
  case clock =>
    rw [sweep_rest]
    exact leads.clock
  case reads => exact leads.reads
  case strategies =>
    intro slot bound
    rw [(sweep_other (absent slot bound) other).1, leads.strategies slot bound]
  case states =>
    intro slot bound
    rw [(sweep_other (absent slot bound) other).2, leads.states slot bound]

theorem evaluate (within : ∀ slot ∈ plan.order, slot < plan.size)
    (order : Prolongs (plan.size ≤ ·) plan.order other.order) :
    plan.evaluate.Leads other.evaluate := by
  obtain ⟨later, order, beyond⟩ := order
  have advanced : { plan with clock := plan.clock.advance }.Leads
      { other with clock := other.clock.advance } :=
    ⟨congrArg Clock.advance leads.clock, leads.reads, leads.strategies, leads.states⟩
  have size : plan.evaluate.size = plan.size := (evaluate_sizes plan).1
  have swept : other.evaluate =
      ({ other with clock := other.clock.advance }.sweep plan.order).sweep later := by
    rw [← sweep_append, ← order, evaluate_eq_sweep]
  rw [swept]
  exact (advanced.sweep within).sweep_new fun slot member => size ▸ beyond slot member

end Leads

def written (plan : Plan) (element : ElementId) (value : Tri) : Plan :=
  (plan.setValue element value).toOption.getD plan

theorem written_of_none {element : ElementId} {value : Tri} (absent : plan.slot element = none) :
    plan.written element value = plan := by
  rw [written, setValue, absent]
  rfl

theorem written_of_some {element : ElementId} {slot : Nat} {value : Tri}
    (placed : plan.slot element = some slot) : plan.written element value =
      { plan with states := plan.states.setIfInBounds slot value } := by
  rw [written, setValue, placed]
  rfl

theorem keeps_written (plan : Plan) (element : ElementId) (value : Tri) :
    plan.Keeps (plan.written element value) := by
  cases placed : plan.slot element with
  | none =>
      rw [written_of_none placed]
      exact Reaches.refl.keeps
  | some slot =>
      rw [written_of_some placed]
      exact (Reaches.setValue .refl (by rw [setValue, placed])).keeps

structure Annexed (part whole : Circuit) (plan other : Plan) : Prop extends Leads plan other where
  within : ∀ slot ∈ plan.order, slot < plan.size
  order : Prolongs (plan.size ≤ ·) plan.order other.order
  placed : ∀ element slot, plan.slot element = some slot → element < part.size ∧ slot < plan.size
  slot : ∀ element < part.size, other.slot element = plan.slot element
  slotNew : ∀ element slot, part.size ≤ element → other.slot element = some slot → plan.size ≤ slot
  bound : ∀ bound ∈ plan.boundTags, bound.tag < part.size ∧ bound.slot < plan.size
  labels : ∀ bound ∈ plan.boundTags, ∀ entry ∈ bound.signals,
    entry.1 < part.size ∧ entry.2 = part.blockOf entry.1
  boundTags : Prolongs (part.size ≤ ·.tag) (plan.boundTags.map (·.relabel whole)) other.boundTags

namespace Annexed

variable {part whole : Circuit} (annexed : plan.Annexed part whole other)

include annexed

theorem keeps {made twin : Plan} (keeps : plan.Keeps made) (twinKeeps : other.Keeps twin)
    (leads : made.Leads twin) : made.Annexed part whole twin := by
  constructor
  case toLeads => exact leads
  case within => rw [keeps.order, keeps.size]; exact annexed.within
  case order => rw [keeps.order, keeps.size, twinKeeps.order]; exact annexed.order
  case placed => rw [keeps.slot, keeps.size]; exact annexed.placed
  case slot => rw [keeps.slot, twinKeeps.slot]; exact annexed.slot
  case slotNew => rw [keeps.size, twinKeeps.slot]; exact annexed.slotNew
  case bound => rw [keeps.boundTags, keeps.size]; exact annexed.bound
  case labels => rw [keeps.boundTags]; exact annexed.labels
  case boundTags => rw [keeps.boundTags, twinKeeps.boundTags]; exact annexed.boundTags

theorem evaluate : plan.evaluate.Annexed part whole other.evaluate := by
  have leads := annexed.toLeads.evaluate annexed.within annexed.order
  exact annexed.keeps (Reaches.evaluate .refl).keeps (Reaches.evaluate .refl).keeps leads

theorem written_new {element : ElementId} (beyond : part.size ≤ element) (value : Tri) :
    plan.Annexed part whole (other.written element value) := by
  have twinKeeps := other.keeps_written element value
  cases placed : other.slot element with
  | none =>
      rw [written_of_none placed]
      exact annexed
  | some slot =>
      rw [written_of_some placed] at twinKeeps ⊢
      have away := annexed.slotNew element slot beyond placed
      exact annexed.keeps Reaches.refl.keeps twinKeeps (annexed.toLeads.write_new away value)

theorem written (element : ElementId) (value : Tri) :
    (plan.written element value).Annexed part whole (other.written element value) := by
  have keeps := plan.keeps_written element value
  have twinKeeps := other.keeps_written element value
  rcases Nat.lt_or_ge element part.size with inside | beyond
  · have same := annexed.slot element inside
    cases placed : plan.slot element with
    | none =>
        rw [written_of_none placed, written_of_none (same.trans placed)]
        exact annexed
    | some slot =>
        rw [written_of_some placed] at keeps ⊢
        rw [written_of_some (same.trans placed)] at twinKeeps ⊢
        exact annexed.keeps keeps twinKeeps (annexed.toLeads.write value)
  · have absent : plan.slot element = none := by
      by_contra found
      obtain ⟨slot, placed⟩ := Option.ne_none_iff_exists'.mp found
      exact Nat.not_lt_of_le beyond (annexed.placed element slot placed).1
    rw [written_of_none absent]
    exact annexed.written_new beyond value

theorem value {element : ElementId} (inside : element < part.size) :
    other.value element = plan.value element := by
  rw [Plan.value, Plan.value, annexed.slot element inside]
  cases placed : plan.slot element with
  | none => rfl
  | some slot => exact annexed.states slot (annexed.placed element slot placed).2

theorem observed {tag : ElementId} (inside : tag < part.size) :
    other.observed.lookup tag = plan.observed.lookup tag := by
  have grown : Prolongs (part.size ≤ ·.1) ((plan.boundTags.map (·.relabel whole)).map
      fun bound => (bound.tag, other.states.getD bound.slot .unknown)) other.observed :=
    annexed.boundTags.map fun _ _ beyond => beyond
  have old : (plan.boundTags.map (·.relabel whole)).map
      (fun bound => (bound.tag, other.states.getD bound.slot .unknown)) = plan.observed := by
    rw [List.map_map, Plan.observed]
    refine List.map_congr_left fun bound member => ?_
    simp only [Function.comp_apply, BoundTag.relabel, Array.getD_eq_getD_getElem?]
    rw [annexed.states bound.slot (annexed.bound bound member).2]
  rw [old] at grown
  obtain ⟨later, observed, beyond⟩ := grown
  have none : later.lookup tag = none := by
    rw [List.lookup_eq_none_iff]
    intro entry member
    simpa using (Nat.lt_of_lt_of_le inside (beyond entry member)).ne
  rw [observed, List.lookup_append, none, Option.or_none]

theorem changes_relabel (same : ∀ id < part.size, whole.blockOf id = part.blockOf id)
    (reported : List (ElementId × Tri)) :
    (plan.changes reported).map (·.relabel whole) = plan.changes reported := by
  have each : ∀ change ∈ plan.changes reported, change.relabel whole = change := by
    intro change member
    obtain ⟨bound, listed, _, among, _⟩ := mem_changes.mp member
    obtain ⟨inside, block⟩ := annexed.labels bound listed _ among
    rw [StateChange.relabel, same _ inside, ← block]
  rw [List.map_congr_left each, List.map_id']

variable {reported otherReported : List (ElementId × Tri)}
  (reports : ∀ tag < part.size, otherReported.lookup tag = reported.lookup tag)

include reports

theorem changesOf {bound : BoundTag} (member : bound ∈ plan.boundTags) :
    other.changesOf otherReported (bound.relabel whole) =
      (plan.changesOf reported bound).map (·.relabel whole) := by
  obtain ⟨inside, held⟩ := annexed.bound bound member
  simp only [Plan.changesOf, BoundTag.relabel, Array.getD_eq_getD_getElem?,
    annexed.states bound.slot held, reports bound.tag inside]
  split
  · rfl
  · simp [StateChange.relabel]

/-- The changes of the tags that were there before are those that they have without what is new. -/
theorem changes : (other.changes otherReported).filter (·.tag < part.size) =
    (plan.changes reported).map (·.relabel whole) := by
  have old : (plan.boundTags.map (·.relabel whole)).flatMap (other.changesOf otherReported) =
      (plan.changes reported).map (·.relabel whole) := by
    rw [Plan.changes, List.flatMap_map, List.map_flatMap]
    exact List.flatMap_congr fun bound member => annexed.changesOf reports member
  have grown : Prolongs (part.size ≤ ·.tag) ((plan.changes reported).map (·.relabel whole))
      (other.changes otherReported) := by
    rw [← old]
    refine annexed.boundTags.flatMap (fun _ _ => rfl) fun bound _ beyond change told => ?_
    rw [tag_of_mem_changesOf told]
    exact beyond
  refine grown.filter_old (fun change member => ?_) fun change _ beyond =>
    decide_eq_false (Nat.not_lt_of_le beyond)
  obtain ⟨before, among, rfl⟩ := List.mem_map.mp member
  obtain ⟨bound, listed, same, _⟩ := mem_changes.mp among
  exact decide_eq_true (same ▸ (annexed.bound bound listed).1)

end Annexed

namespace Annexed

variable {part whole circuit twin : Circuit} {clock : Clock}
  (annexed : plan.Annexed part whole other) (indexed : plan.Indexed circuit clock)
  (otherIndexed : other.Indexed twin clock)

include annexed indexed

theorem strategy {element : ElementId} {slot : Nat} (placed : plan.slot element = some slot) :
    ∃ strategy, strategy.element = element ∧ plan.strategies[slot]? = some strategy ∧
      other.strategies[slot]? = some strategy := by
  obtain ⟨strategy, held, same⟩ := (indexed.slots element slot).mp placed
  exact ⟨strategy, same, held, (annexed.strategies slot (indexed.slot_lt placed)).trans held⟩

include otherIndexed

theorem isEvaluable {element : ElementId} (inside : element < part.size) :
    other.isEvaluable element = plan.isEvaluable element := by
  rw [Plan.isEvaluable, Plan.isEvaluable, annexed.slot element inside]
  cases placed : plan.slot element with
  | none => rfl
  | some slot =>
      obtain ⟨strategy, _, held, otherHeld⟩ := annexed.strategy indexed placed
      simp only [Option.bind_some, indexed.flags, otherIndexed.flags, Array.getElem?_map, held,
        otherHeld]

theorem elementOrder : other.elementOrder.filter (· < part.size) = plan.elementOrder := by
  have grown : Prolongs (part.size ≤ ·) plan.elementOrder other.elementOrder := by
    refine annexed.order.filterMap (fun slot member => ?_) fun slot _ beyond element found => ?_
    · rw [annexed.strategies slot (annexed.within slot member)]
    · by_contra inside
      have placed := (otherIndexed.slots element slot).mpr (Option.map_eq_some_iff.mp found)
      rw [annexed.slot element (Nat.lt_of_not_le inside)] at placed
      exact Nat.not_lt_of_le beyond (indexed.slot_lt placed)
  refine grown.filter_old (fun element member => ?_) fun element _ beyond =>
    decide_eq_false (Nat.not_lt_of_le beyond)
  obtain ⟨slot, _, found⟩ := List.mem_filterMap.mp member
  have placed := (indexed.slots element slot).mpr (Option.map_eq_some_iff.mp found)
  exact decide_eq_true (annexed.placed element slot placed).1

end Annexed

end Plan

namespace Circuit

variable {part whole : Circuit}

namespace Annexed

variable (annexed : part.Annexed whole)

include annexed

theorem slot_planOf {element : ElementId} (inside : element < part.size) (clock : Clock) :
    (whole.prepared.planOf clock).slot element = (part.prepared.planOf clock).slot element := by
  have placed : (whole.slots clock).idxOf? element = (part.slots clock).idxOf? element :=
    annexed.idxOf? inside
  rw [← annexed.sound.readied.slots, ← annexed.wholeSound.readied.slots] at placed
  rw [Circuit.slot_planOf, Circuit.slot_planOf]
  exact placed

theorem order_planOf (clock : Clock) : Prolongs ((part.prepared.planOf clock).size ≤ ·)
    (part.prepared.planOf clock).order (whole.prepared.planOf clock).order := by
  have heads := Plan.heads_dependencies (indexed_planOf part.prepared clock)
    (indexed_planOf whole.prepared clock) (annexed.size_planOf_le clock)
    fun slot bound => annexed.strategies bound
  have size : (part.prepared.planOf clock).dependencies.table.size =
      (part.prepared.planOf clock).size := Array.size_map
  rw [Plan.order_planOf, Plan.order_planOf, ← size]
  exact heads.order

theorem planned (clock : Clock) : (part.prepared.planOf clock).Annexed part whole
    (whole.prepared.planOf clock) := by
  have indexed := indexed_planOf part.prepared clock
  have shows := Plan.shows_planOf part.prepared clock
  have size := annexed.sound.readied.size
  have placed : ∀ element slot, (part.prepared.planOf clock).slot element = some slot →
      element < part.size ∧ slot < (part.prepared.planOf clock).size := by
    intro element slot found
    obtain ⟨kind, held, _⟩ := (indexed.simulated element).mp (by rw [found]; rfl)
    obtain ⟨_, isHeld, _⟩ := kind?_eq_some.mp held
    exact ⟨size ▸ get?_lt isHeld, indexed.slot_lt found⟩
  constructor
  case toLeads =>
    constructor
    case clock => rw [Plan.clock_planOf, Plan.clock_planOf]
    case reads => exact fun slot source reads => indexed.sources_lt reads
    case strategies => exact fun slot bound => annexed.strategies bound
    case states =>
      intro slot bound
      rw [Plan.states_planOf, Plan.states_planOf, Array.getElem?_map, Array.getElem?_map,
        annexed.strategies bound]
  case within => exact fun slot member => indexed.order_lt member
  case order => exact annexed.order_planOf clock
  case placed => exact placed
  case slot => exact fun element inside => annexed.slot_planOf inside clock
  case slotNew =>
    intro element slot beyond found
    rw [Circuit.slot_planOf, ← Circuit.slots, annexed.wholeSound.readied.slots] at found
    rw [Plan.size, size_planOf, annexed.sound.readied.slots]
    exact annexed.le_idxOf? beyond found
  case bound =>
    intro bound member
    obtain ⟨held, found⟩ := indexed.bound bound member
    exact ⟨(placed _ _ found).1, held⟩
  case labels =>
    rintro bound member ⟨signal, block⟩ listed
    obtain ⟨tagged, same⟩ := (shows.signals bound member signal block).mp listed
    obtain ⟨_, held, _⟩ := tagOf_eq_some.mp tagged
    refine ⟨size ▸ get?_lt held, ?_⟩
    rw [← blockOf_prepared]
    exact same.symm
  case boundTags => exact annexed.boundTags clock

end Annexed

end Circuit

end RelayLogic
