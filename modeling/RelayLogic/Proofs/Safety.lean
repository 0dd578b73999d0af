import RelayLogic.Proofs.Settling
import RelayLogic.Proofs.Showing

/-!
Plans that are safe to run. The slots, flags, order, bindings and bound tags of a compiled plan fit
each other whatever circuit it is of, and cycles and writes leave them as they are. So nothing that
a cycle or a report looks up is ever missing.
-/

namespace RelayLogic

def Kind.isSimulated : Kind → Bool
  | tag _ _ | signal none | gate _ | timer _ _ | memory _ => true
  | _ => false

@[simp] theorem OnDelay.cycles_step (timer : OnDelay) (now : Nat) (enable : Tri) :
    (timer.step now enable).2.cycles = timer.cycles := by
  cases enable <;> rfl

@[simp] theorem OffDelay.cycles_step (timer : OffDelay) (now : Nat) (enable : Tri) :
    (timer.step now enable).2.cycles = timer.cycles := by
  cases enable with
  | false =>
      simp only [step]
      split
      · split <;> rfl
      · rfl
  | _ => rfl

@[simp] theorem Pulse.cycles_step (timer : Pulse) (now : Nat) (enable : Tri) :
    (timer.step now enable).2.cycles = timer.cycles := by
  have window : ∀ timer : Pulse, (timer.window now).2.cycles = timer.cycles := by
    intro timer
    unfold Pulse.window
    split
    · split <;> rfl
    · rfl
  cases enable with
  | unknown => rfl
  | _ => exact window _

namespace Behaviour

def renewed : Behaviour → Behaviour
  | onDelay timer => .onDelay (.new timer.cycles)
  | offDelay timer => .offDelay (.new timer.cycles)
  | pulse timer => .pulse (.new timer.cycles)
  | pass initial => .pass initial
  | gate kind => .gate kind
  | latch => .latch

@[simp] theorem renewed_eq_latch {behaviour : Behaviour} :
    behaviour.renewed = .latch ↔ behaviour = .latch := by
  cases behaviour <;> simp [renewed]

end Behaviour

namespace Strategy

def renewed (strategy : Strategy) : Strategy :=
  { strategy with behaviour := strategy.behaviour.renewed }

theorem renewed_inj {strategy other : Strategy} (same : strategy.renewed = other.renewed) :
    strategy.element = other.element ∧
      strategy.behaviour.renewed = other.behaviour.renewed ∧ strategy.bindings = other.bindings := by
  simpa [renewed] using same

theorem isSome_behaviourOf (clock : Clock) (kind : Kind) :
    (behaviourOf? clock kind).isSome = kind.isSimulated := by
  cases kind with
  | signal tag => cases tag <;> rfl
  | timer kind delay => cases kind <;> rfl
  | _ => rfl

theorem renewed_behaviourOf {clock : Clock} {kind : Kind} {behaviour : Behaviour}
    (known : behaviourOf? clock kind = some behaviour) : behaviour.renewed = behaviour := by
  cases kind with
  | signal tag =>
      cases tag <;> cases known
      rfl
  | timer kind delay => cases kind <;> cases known <;> rfl
  | _ => cases known <;> rfl

theorem renewed_calculate (strategy : Strategy) (states : States) (now : Nat) :
    (strategy.calculate states now).2.renewed = strategy.renewed := by
  obtain ⟨element, behaviour, bindings⟩ := strategy
  cases behaviour <;> simp [calculate, renewed, Behaviour.renewed]

theorem isEvaluable_renewed (strategy : Strategy) :
    strategy.renewed.isEvaluable = strategy.isEvaluable := by
  obtain ⟨element, behaviour, bindings⟩ := strategy
  cases behaviour <;> rfl

end Strategy

namespace Plan

variable {plan start : Plan} {circuit : Circuit} {clock : Clock}

theorem mapM_eq_filterMap {view : α → Option β} {items : List α}
    (each : ∀ item ∈ items, ∃ seen, view item = some seen) :
    items.mapM view = some (items.filterMap view) := by
  induction items with
  | nil => rfl
  | cons item items ih =>
      obtain ⟨seen, isSeen⟩ := each item List.mem_cons_self
      have rest := ih fun other member => each other (List.mem_cons_of_mem _ member)
      rw [List.mapM_cons, rest, List.filterMap_cons, isSeen]
      rfl

/-- Computes one slot, if there are its strategy, its cell and the cells that are read, and the
strategy is one that computes. -/
def calculate? (plan : Plan) (slot : Nat) : Option Plan := do
  let strategy ← plan.strategies[slot]?
  let _ ← plan.states[slot]?
  let _ ← strategy.bindings.mapM fun binding => plan.states[binding.source]?
  if strategy.behaviour = .latch then none else some (plan.calculate slot)

def evaluate? (plan : Plan) : Option Plan :=
  plan.order.foldlM calculate? { plan with clock := plan.clock.advance }

def elementOrder? (plan : Plan) : Option (List ElementId) :=
  plan.order.mapM fun slot => (plan.strategies[slot]?).map (·.element)

def observed? (plan : Plan) : Option (List (ElementId × Tri)) :=
  plan.boundTags.mapM fun bound => (plan.states[bound.slot]?).map ((bound.tag, ·))

structure Indexed (circuit : Circuit) (clock : Clock) (plan : Plan) : Prop where
  states : plan.states.size = plan.size
  flags : plan.evaluable = plan.strategies.map (·.isEvaluable)
  simulated : ∀ element, (plan.slot element).isSome ↔
    ∃ kind, circuit.kind? element = some kind ∧ kind.isSimulated
  slots : ∀ element slot, plan.slot element = some slot ↔
    ∃ strategy, plan.strategies[slot]? = some strategy ∧ strategy.element = element
  suits : ∀ strategy ∈ plan.strategies,
    circuit.behaviour? clock strategy.element = some strategy.behaviour.renewed
  once : plan.order.Nodup
  order : ∀ slot, slot ∈ plan.order ↔ plan.evaluable[slot]? = some true
  bindings : ∀ strategy ∈ plan.strategies, ∀ binding ∈ strategy.bindings,
    binding.source < plan.size
  bound : ∀ bound ∈ plan.boundTags, bound.slot < plan.size ∧ plan.slot bound.tag = some bound.slot

/-- A plan that can be run and asked for all that it is asked for: its parts fit each other, and
whatever is looked up is there. -/
structure Safe (circuit : Circuit) (clock : Clock) (plan : Plan) : Prop where
  indexed : plan.Indexed circuit clock
  evaluates : plan.evaluate? = some plan.evaluate
  ordered : plan.elementOrder? = some plan.elementOrder
  observes : plan.observed? = some plan.observed
  valued : ∀ element slot, plan.slot element = some slot →
    ∃ value flag, plan.states[slot]? = some value ∧ plan.evaluable[slot]? = some flag

structure Keeps (start plan : Plan) : Prop where
  strategies : plan.strategies.map Strategy.renewed = start.strategies.map Strategy.renewed
  evaluable : plan.evaluable = start.evaluable
  order : plan.order = start.order
  boundTags : plan.boundTags = start.boundTags
  states : plan.states.size = start.states.size

theorem Keeps.trans {middle : Plan} (first : start.Keeps middle) (rest : middle.Keeps plan) :
    start.Keeps plan :=
  ⟨rest.strategies.trans first.strategies, rest.evaluable.trans first.evaluable,
    rest.order.trans first.order, rest.boundTags.trans first.boundTags,
    rest.states.trans first.states⟩

theorem keeps_calculate (plan : Plan) (slot : Nat) : plan.Keeps (plan.calculate slot) := by
  cases held : plan.strategies[slot]? with
  | none =>
      rw [show plan.calculate slot = plan by simp only [calculate, held]]
      exact ⟨rfl, rfl, rfl, rfl, rfl⟩
  | some strategy =>
      obtain ⟨bound, equal⟩ := Array.getElem?_eq_some_iff.mp held
      rw [calculate_of_some held]
      refine ⟨?_, rfl, rfl, rfl, Array.size_setIfInBounds⟩
      apply Array.ext_getElem?
      intro other
      rw [Array.getElem?_map, Array.getElem?_map, Array.getElem?_setIfInBounds]
      split
      next same => simp [← same, bound, equal, Strategy.renewed_calculate]
      next => rfl

theorem keeps_sweep (slots : List Nat) (plan : Plan) : plan.Keeps (plan.sweep slots) := by
  induction slots generalizing plan with
  | nil => exact ⟨rfl, rfl, rfl, rfl, rfl⟩
  | cons slot slots ih => exact (keeps_calculate plan slot).trans (ih (plan.calculate slot))

theorem keeps_advance (plan : Plan) : plan.Keeps { plan with clock := plan.clock.advance } :=
  ⟨rfl, rfl, rfl, rfl, rfl⟩

theorem Reaches.keeps (reached : start.Reaches plan) : start.Keeps plan := by
  induction reached with
  | refl => exact ⟨rfl, rfl, rfl, rfl, rfl⟩
  | @evaluate plan _ ih =>
      exact ih.trans ((keeps_advance plan).trans (keeps_sweep plan.order _))
  | setValue _ set ih =>
      obtain ⟨slot, _, rfl⟩ := setValue_eq set
      exact ih.trans ⟨rfl, rfl, rfl, rfl, Array.size_setIfInBounds⟩

namespace Keeps

variable (keeps : start.Keeps plan)

include keeps

theorem size : plan.size = start.size := by
  have sizes := congrArg Array.size keeps.strategies
  rwa [Array.size_map, Array.size_map] at sizes

theorem strategy {slot : Nat} {strategy : Strategy}
    (held : plan.strategies[slot]? = some strategy) :
    ∃ first, start.strategies[slot]? = some first ∧ strategy.renewed = first.renewed := by
  have same := congrArg (·[slot]?) keeps.strategies
  simp only [Array.getElem?_map, held, Option.map_some] at same
  obtain ⟨first, firstHeld, equal⟩ := Option.map_eq_some_iff.mp same.symm
  exact ⟨first, firstHeld, equal.symm⟩

theorem slot : plan.slot = start.slot := by
  refine slot_congr ?_
  have elements := congrArg (Array.map Strategy.element) keeps.strategies
  rwa [Array.map_map, Array.map_map] at elements

theorem symm : plan.Keeps start :=
  ⟨keeps.strategies.symm, keeps.evaluable.symm, keeps.order.symm, keeps.boundTags.symm,
    keeps.states.symm⟩

end Keeps

namespace Indexed

theorem keeps (indexed : start.Indexed circuit clock) (keeps : start.Keeps plan) :
    plan.Indexed circuit clock := by
  have before : ∀ strategy ∈ plan.strategies, ∃ first ∈ start.strategies,
      strategy.renewed = first.renewed := by
    intro strategy member
    obtain ⟨slot, held⟩ := Array.getElem?_of_mem member
    obtain ⟨first, firstHeld, same⟩ := keeps.strategy held
    exact ⟨first, Array.mem_of_getElem? firstHeld, same⟩
  constructor
  case states => rw [keeps.states, keeps.size, indexed.states]
  case flags =>
    have flags := congrArg (Array.map Strategy.isEvaluable) keeps.strategies
    have renewed : Strategy.isEvaluable ∘ Strategy.renewed = Strategy.isEvaluable :=
      funext Strategy.isEvaluable_renewed
    rw [Array.map_map, Array.map_map, renewed] at flags
    rw [keeps.evaluable, indexed.flags, flags]
  case simulated => rw [keeps.slot]; exact indexed.simulated
  case slots =>
    intro element slot
    rw [keeps.slot, indexed.slots]
    constructor
    · rintro ⟨first, held, rfl⟩
      obtain ⟨strategy, strategyHeld, same⟩ := keeps.symm.strategy held
      exact ⟨strategy, strategyHeld, (Strategy.renewed_inj same).1.symm⟩
    · rintro ⟨strategy, held, rfl⟩
      obtain ⟨first, firstHeld, same⟩ := keeps.strategy held
      exact ⟨first, firstHeld, (Strategy.renewed_inj same).1.symm⟩
  case suits =>
    intro strategy member
    obtain ⟨first, firstMember, same⟩ := before strategy member
    obtain ⟨element, behaviour, _⟩ := Strategy.renewed_inj same
    rw [element, behaviour]
    exact indexed.suits first firstMember
  case once => rw [keeps.order]; exact indexed.once
  case order => rw [keeps.order, keeps.evaluable]; exact indexed.order
  case bindings =>
    intro strategy member binding listed
    obtain ⟨first, firstMember, same⟩ := before strategy member
    obtain ⟨_, _, bindings⟩ := Strategy.renewed_inj same
    rw [keeps.size]
    exact indexed.bindings first firstMember binding (bindings ▸ listed)
  case bound => rw [keeps.boundTags, keeps.slot, keeps.size]; exact indexed.bound

variable (indexed : plan.Indexed circuit clock)

include indexed

theorem strategy_of_mem {slot : Nat} (member : slot ∈ plan.order) :
    ∃ strategy, plan.strategies[slot]? = some strategy ∧ strategy.isEvaluable := by
  have flag := (indexed.order slot).mp member
  rw [indexed.flags, Array.getElem?_map] at flag
  exact Option.map_eq_some_iff.mp flag

theorem slot_lt {element : ElementId} {slot : Nat} (placed : plan.slot element = some slot) :
    slot < plan.size := by
  obtain ⟨_, held, _⟩ := (indexed.slots element slot).mp placed
  exact (Array.getElem?_eq_some_iff.mp held).1

theorem order_lt {slot : Nat} (member : slot ∈ plan.order) : slot < plan.size := by
  obtain ⟨_, held, _⟩ := indexed.strategy_of_mem member
  exact (Array.getElem?_eq_some_iff.mp held).1

theorem cell {slot : Nat} (bound : slot < plan.size) :
    ∃ value, plan.states[slot]? = some value := by
  have inside : slot < plan.states.size := indexed.states.symm ▸ bound
  exact ⟨plan.states[slot], Array.getElem?_eq_getElem inside⟩

theorem calculate?_eq {slot : Nat} (member : slot ∈ plan.order) :
    plan.calculate? slot = some (plan.calculate slot) := by
  obtain ⟨strategy, held, computed⟩ := indexed.strategy_of_mem member
  obtain ⟨value, cell⟩ := indexed.cell (indexed.order_lt member)
  have reads : (strategy.bindings.mapM fun binding => plan.states[binding.source]?) =
      some (strategy.bindings.filterMap fun binding => plan.states[binding.source]?) :=
    mapM_eq_filterMap fun binding listed =>
      indexed.cell (indexed.bindings strategy (Array.mem_of_getElem? held) binding listed)
  have computes : strategy.behaviour ≠ .latch := by
    rintro isLatch
    simp [Strategy.isEvaluable, isLatch] at computed
  simp only [calculate?, held, cell, reads, bind, Option.bind_some, computes, ↓reduceIte]

theorem evaluate?_eq : plan.evaluate? = some plan.evaluate := by
  -- Whatever slots of the order come first, those that follow find a plan with the same parts.
  have each : ∀ (slots : List Nat) (made : Plan), made.Indexed circuit clock →
      made.order = plan.order → (∀ slot ∈ slots, slot ∈ plan.order) →
        slots.foldlM calculate? made = some (made.sweep slots) := by
    intro slots
    induction slots with
    | nil => exact fun _ _ _ _ => rfl
    | cons slot slots ih =>
        intro made parts same listed
        have first := parts.calculate?_eq (same ▸ listed slot List.mem_cons_self)
        have kept := keeps_calculate made slot
        rw [List.foldlM_cons, first, sweep_cons]
        exact ih _ (parts.keeps kept) (kept.order.trans same)
          fun other member => listed other (List.mem_cons_of_mem _ member)
  exact each plan.order _ (indexed.keeps (keeps_advance plan)) rfl fun _ member => member

theorem elementOrder?_eq : plan.elementOrder? = some plan.elementOrder := by
  refine mapM_eq_filterMap fun slot member => ?_
  obtain ⟨strategy, held, _⟩ := indexed.strategy_of_mem member
  exact ⟨strategy.element, by rw [held, Option.map_some]⟩

theorem observed?_eq : plan.observed? = some plan.observed := by
  have each : ∀ bound ∈ plan.boundTags, (plan.states[bound.slot]?).map ((bound.tag, ·)) =
      some (bound.tag, plan.states.getD bound.slot .unknown) := by
    intro bound member
    obtain ⟨value, cell⟩ := indexed.cell (indexed.bound bound member).1
    rw [Array.getD_eq_getD_getElem?, cell, Option.getD_some, Option.map_some]
  rw [observed?, mapM_eq_filterMap fun bound member => ⟨_, each bound member⟩,
    List.filterMap_congr each, List.filterMap_eq_map', observed]

theorem safe : plan.Safe circuit clock where
  indexed := indexed
  evaluates := indexed.evaluate?_eq
  ordered := indexed.elementOrder?_eq
  observes := indexed.observed?_eq
  valued element slot placed := by
    obtain ⟨strategy, held, _⟩ := (indexed.slots element slot).mp placed
    obtain ⟨value, cell⟩ := indexed.cell (indexed.slot_lt placed)
    exact ⟨value, strategy.isEvaluable, cell, by rw [indexed.flags, Array.getElem?_map, held]; rfl⟩

end Indexed

end Plan

namespace Circuit

variable {circuit : Circuit} {clock : Clock}

theorem getElem?_slots (circuit : Circuit) (clock : Clock) (slot : Nat) :
    (circuit.slots clock)[slot]? =
      ((circuit.planOf clock).strategies[slot]?).map (·.element) := by
  cases placed : (circuit.slots clock)[slot]? with
  | none =>
      have beyond := List.getElem?_eq_none_iff.mp placed
      rw [← size_planOf] at beyond
      rw [Array.getElem?_eq_none_iff.mpr beyond]
      rfl
  | some element =>
      obtain ⟨behaviour, _, held⟩ := strategy_planOf placed
      rw [held]
      rfl

theorem idxOf?_eq_some_iff {list : List Nat} (unique : list.Nodup) {item index : Nat} :
    list.idxOf? item = some index ↔ list[index]? = some item := by
  constructor
  · intro found
    have member : item ∈ list := by
      by_contra absent
      rw [List.idxOf?_eq_none_iff.mpr absent] at found
      contradiction
    rw [idxOf?_of_mem member, Option.some.injEq] at found
    rw [← found, List.getElem?_eq_getElem (List.idxOf_lt_length_of_mem member), List.getElem_idxOf]
  · intro placed
    obtain ⟨bound, rfl⟩ := List.getElem?_eq_some_iff.mp placed
    rw [idxOf?_of_mem (List.getElem_mem bound), unique.idxOf_getElem]

theorem source_lt {slots : List ElementId} {connections : List (ElementId × List Connection)}
    {element : ElementId} {binding : Binding}
    (member : binding ∈ circuit.bindings slots connections element) :
    binding.source < slots.length := by
  obtain ⟨pin, _, listed⟩ := List.mem_flatMap.mp member
  split at listed
  · obtain ⟨connection, _, made⟩ := List.mem_filterMap.mp listed
    obtain ⟨_, found, _⟩ := binding?_eq_some.mp made
    obtain ⟨owner, _, placed⟩ := Option.bind_eq_some_iff.mp found
    have listed : owner ∈ slots := by
      by_contra absent
      rw [List.idxOf?_eq_none_iff.mpr absent] at placed
      contradiction
    rw [idxOf?_of_mem listed, Option.some.injEq] at placed
    exact placed ▸ List.idxOf_lt_length_of_mem listed
  · contradiction

theorem isSome_behaviour? (clock : Clock) {element : ElementId} :
    (circuit.behaviour? clock element).isSome ↔
    ∃ kind, circuit.kind? element = some kind ∧ kind.isSimulated := by
  simp only [behaviour?, kind?]
  cases circuit.get? element with
  | none => simp
  | some held => simp [Strategy.isSome_behaviourOf]

theorem indexed_planOf (circuit : Circuit) (clock : Clock) :
    (circuit.planOf clock).Indexed circuit clock := by
  have scheduled := Plan.scheduled_planOf circuit clock
  have flags : (circuit.planOf clock).evaluable =
      (circuit.planOf clock).strategies.map (·.isEvaluable) := rfl
  have size : (circuit.planOf clock).size = (circuit.slots clock).length := size_planOf circuit clock
  have placed : ∀ element slot, (circuit.planOf clock).slot element = some slot ↔
      (circuit.slots clock)[slot]? = some element := by
    intro element slot
    rw [slot_planOf, ← slots, idxOf?_eq_some_iff (nodup_slots circuit clock)]
  have each : ∀ strategy ∈ (circuit.planOf clock).strategies,
      circuit.behaviour? clock strategy.element = some strategy.behaviour ∧
        strategy.bindings = circuit.bindingsAs clock strategy.element strategy.behaviour := by
    intro strategy member
    obtain ⟨slot, held⟩ := Array.getElem?_of_mem member
    have listed := getElem?_slots circuit clock slot
    rw [held, Option.map_some] at listed
    obtain ⟨behaviour, behaves, found⟩ := strategy_planOf listed
    rw [held] at found
    rw [Option.some.inj found]
    exact ⟨behaves, rfl⟩
  constructor
  case states => exact scheduled.sizes
  case flags => exact flags
  case simulated =>
    intro element
    rw [slot_planOf, ← slots, ← isSome_behaviour? clock, slots_eq]
    constructor
    · intro found
      have listed : element ∈ circuit.ids.filter
          fun id => (circuit.behaviour? clock id).isSome := by
        by_contra absent
        rw [List.idxOf?_eq_none_iff.mpr absent] at found
        contradiction
      exact (List.mem_filter.mp listed).2
    · intro behaves
      obtain ⟨behaviour, known⟩ := Option.isSome_iff_exists.mp behaves
      obtain ⟨held, isHeld, _⟩ := Option.bind_eq_some_iff.mp known
      have inside : element ∈ circuit.ids := List.mem_range.mpr (get?_lt isHeld)
      rw [idxOf?_of_mem (List.mem_filter.mpr ⟨inside, behaves⟩)]
      rfl
  case slots =>
    intro element slot
    rw [placed, getElem?_slots, Option.map_eq_some_iff]
  case suits =>
    intro strategy member
    obtain ⟨held, _, behaves⟩ := Option.bind_eq_some_iff.mp (each strategy member).1
    rw [(each strategy member).1, Strategy.renewed_behaviourOf behaves]
  case once => exact scheduled.unique
  case order =>
    intro slot
    rw [scheduled.member, Plan.computes, Array.getD_eq_getD_getElem?]
    cases (circuit.planOf clock).evaluable[slot]? <;> simp
  case bindings =>
    intro strategy member binding listed
    rw [(each strategy member).2, bindingsAs] at listed
    split at listed
    · contradiction
    · exact size ▸ source_lt listed
  case bound =>
    intro bound member
    obtain ⟨_, found, _⟩ := mem_boundTags.mp member
    have slot : (circuit.planOf clock).slot bound.tag = some bound.slot :=
      (slot_planOf circuit clock bound.tag).trans found
    refine ⟨?_, slot⟩
    rw [size]
    exact (List.getElem?_eq_some_iff.mp ((placed _ _).mp slot)).1

theorem behaviour?_prepared (circuit : Circuit) (clock : Clock) :
    circuit.prepared.behaviour? clock = circuit.behaviour? clock :=
  funext ((blind_behaviour clock).prepared circuit)

/-- The plan of any circuit is safe to run, now and after any cycles and writes. -/
theorem compile_safe (circuit : Circuit) {resolution : Nat} (nonzero : resolution ≠ 0) :
    ∃ compiled prepared, circuit.compile resolution = .ok (compiled, prepared) ∧
      ∀ plan, compiled.Reaches plan → plan.Safe circuit (.new resolution) := by
  refine ⟨circuit.prepared.planOf (.new resolution), circuit.prepared, ?_, ?_⟩
  · simp only [compile, nonzero, ↓reduceIte]
  · intro plan reached
    have indexed := (indexed_planOf circuit.prepared (.new resolution)).keeps reached.keeps
    refine Plan.Indexed.safe { indexed with simulated := fun element => ?_, suits := ?_ }
    · rw [indexed.simulated, ← isSome_behaviour? (.new resolution), behaviour?_prepared,
        isSome_behaviour?]
    · rw [← behaviour?_prepared]
      exact indexed.suits

def stocked : Circuit :=
  (empty "plant").afterCalls [
    .addProject "cell", .addContext 1 "line", .addTag "lamp" .unknown, .addTag "spare" .true,
    .addMemory 2 .set "latch", .addGate 2 .and "idle", .addTimer 2 .on "slow" ⟨0⟩,
    .addSignal 2 "button" none, .addSignal 2 "lamp" (some 3), .addWire 2 21 23 false false]

theorem stocked_safe : 10 ≠ 0 ∧
    ∃ compiled prepared, stocked.compile 10 = .ok (compiled, prepared) ∧
      ∀ plan, compiled.Reaches plan → plan.Safe stocked (.new 10) :=
  ⟨by decide, compile_safe stocked (by decide)⟩

end Circuit

end RelayLogic
