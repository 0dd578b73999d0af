import RelayLogic.Proofs.Pairing

/-!
Plans that agree. A plan and another one with its strategies in other slots compute the same values
in the slots that are watched, if what a watched slot reads is watched too and precedes it in both
orders or in none.
-/

namespace RelayLogic

theorem getElem?_setIfInBounds_congr {items others : Array α} {slot index place other : Nat}
    (here : place = other ↔ slot = index) (same : others[other]? = items[index]?) (value : α) :
    (others.setIfInBounds place value)[other]? = (items.setIfInBounds slot value)[index]? := by
  have beyond : others.size ≤ other ↔ items.size ≤ index := by
    rw [← Array.getElem?_eq_none_iff, ← Array.getElem?_eq_none_iff, same]
  simp only [Array.getElem?_setIfInBounds, here]
  split
  next equal =>
    subst equal
    obtain rfl := here.mpr rfl
    simp only [← Nat.not_le, beyond]
  next => exact same

namespace Strategy

@[simp] theorem calculate_element (strategy : Strategy) (states : States) (now : Nat) :
    (strategy.calculate states now).2.element = strategy.element := by
  unfold calculate
  split <;> rfl

end Strategy

namespace Plan

variable {plan twin : Plan} {rename shift : Nat → Nat} {watched : Nat → Prop}

theorem slot_congr {other : Plan} (same : other.strategies.map (·.element) =
    plan.strategies.map (·.element)) : other.slot = plan.slot := by
  have each : ∀ (plan : Plan) element, plan.slot element =
      (plan.strategies.map (·.element)).findIdx? (· == element) := by
    intro plan element
    rw [Array.findIdx?_map]
    rfl
  funext element
  rw [each, each, same]

theorem elements_calculate (plan : Plan) (slot : Nat) :
    (plan.calculate slot).strategies.map (·.element) = plan.strategies.map (·.element) := by
  cases held : plan.strategies[slot]? with
  | none => simp only [calculate, held]
  | some strategy =>
      obtain ⟨bound, equal⟩ := Array.getElem?_eq_some_iff.mp held
      apply Array.ext_getElem?
      intro other
      rw [calculate_of_some held, Array.getElem?_map, Array.getElem?_map,
        Array.getElem?_setIfInBounds]
      split
      next same => simp [← same, bound, equal]
      next => rfl

theorem slot_evaluate (plan : Plan) : plan.evaluate.slot = plan.slot := by
  refine slot_congr (List.foldlRecOn (motive := fun made : Plan =>
    made.strategies.map (·.element) = plan.strategies.map (·.element)) _ _ rfl ?_)
  exact fun made same slot _ => (elements_calculate made slot).trans same

/-- Whether one plan does in other slots what another one does, as far as slots are watched. -/
structure Agrees (rename shift : Nat → Nat) (watched : Nat → Prop) (plan twin : Plan) : Prop where
  injective : Function.Injective shift
  scheduled : plan.Scheduled
  twinScheduled : twin.Scheduled
  clock : twin.clock = plan.clock
  slot : ∀ element, twin.slot (rename element) = (plan.slot element).map shift
  computes : ∀ slot, twin.computes (shift slot) = plan.computes slot
  closed : ∀ slot, watched slot → plan.computes slot → ∀ source ∈ plan.sources slot,
    watched source
  precedes : ∀ slot, watched slot → plan.computes slot → ∀ source ∈ plan.sources slot,
    twin.precedes (shift source) (shift slot) = plan.precedes source slot
  strategies : ∀ slot, watched slot → plan.computes slot → ∀ strategy,
    plan.strategies[slot]? = some strategy → ∃ other,
      twin.strategies[shift slot]? = some other ∧ Strategy.Moves shift strategy other
  states : ∀ slot, watched slot → twin.states[shift slot]? = plan.states[slot]?

namespace Agrees

theorem computed (agrees : Agrees rename shift watched plan twin) {slot : Nat}
    (isWatched : watched slot) (computed : plan.computes slot)
    (before : ∀ source, watched source → plan.precedes source slot →
      twin.evaluate.states[shift source]? = plan.evaluate.states[source]?)
    {strategy : Strategy} (held : plan.strategies[slot]? = some strategy) :
    twin.evaluate.states[shift slot]? = plan.evaluate.states[slot]? ∧
      ∃ after other, plan.evaluate.strategies[slot]? = some after ∧
        twin.evaluate.strategies[shift slot]? = some other ∧ Strategy.Moves shift after other := by
  obtain ⟨other, twinHeld, moves⟩ := agrees.strategies slot isWatched computed strategy held
  have twinComputed : twin.computes (shift slot) := (agrees.computes slot).trans computed
  obtain ⟨value, after⟩ := agrees.scheduled.computed computed held
  obtain ⟨twinValue, twinAfter⟩ := agrees.twinScheduled.computed twinComputed twinHeld
  have agree : ∀ source ∈ strategy.dependencies,
      (twin.found (shift slot)).getD (shift source) .unknown =
        (plan.found slot).getD source .unknown := by
    intro source reads
    rw [← sources_of_some held] at reads
    have sourceWatched := agrees.closed slot isWatched computed source reads
    rw [Array.getD_eq_getD_getElem?, Array.getD_eq_getD_getElem?, getElem?_found, getElem?_found,
      agrees.precedes slot isWatched computed source reads]
    split
    next earlier => rw [before source sourceWatched earlier]
    next => rw [agrees.states source sourceWatched]
  obtain ⟨same, moved⟩ := moves.calculate agree plan.clock.advance.cycle
  rw [agrees.clock, same] at twinValue
  rw [agrees.clock] at twinAfter
  exact ⟨twinValue.trans value.symm, _, _, after, twinAfter, moved⟩

theorem states_evaluate (agrees : Agrees rename shift watched plan twin) {slot : Nat}
    (isWatched : watched slot) :
    twin.evaluate.states[shift slot]? = plan.evaluate.states[slot]? := by
  -- Induction on the position in the order: what precedes a slot is computed before it.
  induction position : plan.order.idxOf slot using Nat.strongRecOn generalizing slot with
  | ind position ih =>
      by_cases computed : plan.computes slot
      · obtain ⟨strategy, held⟩ := agrees.scheduled.strategy computed
        refine (agrees.computed isWatched computed (fun source sourceWatched earlier => ?_) held).1
        simp only [Plan.precedes, decide_eq_true_eq, position] at earlier
        exact ih _ earlier sourceWatched rfl
      · have twinIdle : ¬twin.computes (shift slot) := by rwa [agrees.computes]
        rw [(agrees.scheduled.kept computed).1, (agrees.twinScheduled.kept twinIdle).1]
        exact agrees.states slot isWatched

theorem evaluate (agrees : Agrees rename shift watched plan twin) :
    Agrees rename shift watched plan.evaluate twin.evaluate := by
  constructor
  case injective => exact agrees.injective
  case scheduled => exact agrees.scheduled.evaluate
  case twinScheduled => exact agrees.twinScheduled.evaluate
  case clock =>
    rw [evaluate_rest twin, evaluate_rest plan]
    exact congrArg Clock.advance agrees.clock
  case slot =>
    rw [slot_evaluate, slot_evaluate]
    exact agrees.slot
  case computes =>
    rw [computes_evaluate, computes_evaluate]
    exact agrees.computes
  case closed =>
    rw [computes_evaluate, sources_evaluate]
    exact agrees.closed
  case precedes =>
    rw [computes_evaluate, sources_evaluate, precedes_evaluate, precedes_evaluate]
    exact agrees.precedes
  case strategies =>
    intro slot isWatched computed strategy held
    rw [computes_evaluate] at computed
    obtain ⟨before, beforeHeld⟩ := agrees.scheduled.strategy computed
    obtain ⟨-, after, other, afterHeld, twinHeld, moves⟩ := agrees.computed isWatched computed
      (fun source sourceWatched _ => agrees.states_evaluate sourceWatched) beforeHeld
    rw [afterHeld] at held
    cases held
    exact ⟨other, twinHeld, moves⟩
  case states => exact fun slot isWatched => agrees.states_evaluate isWatched

theorem setValue (agrees : Agrees rename shift watched plan twin) {element : ElementId}
    {slot : Nat} (placed : plan.slot element = some slot) (value : Tri) :
    ∃ written other, plan.setValue element value = .ok written ∧
      twin.setValue (rename element) value = .ok other ∧
        Agrees rename shift watched written other := by
  have twinPlaced := agrees.slot element
  rw [placed, Option.map_some] at twinPlaced
  refine ⟨_, _, by rw [Plan.setValue, placed], by rw [Plan.setValue, twinPlaced], ?_⟩
  obtain ⟨injective, scheduled, twinScheduled, clock, slots, computes, closed, precedes, strategies,
    states⟩ := agrees
  refine ⟨injective, scheduled.withStates (by simp), twinScheduled.withStates (by simp), clock,
    slots, computes, closed, precedes, strategies, fun other isWatched => ?_⟩
  exact getElem?_setIfInBounds_congr injective.eq_iff (states other isWatched) value

theorem value (agrees : Agrees rename shift watched plan twin) {element : ElementId} {slot : Nat}
    (placed : plan.slot element = some slot) (isWatched : watched slot) :
    twin.value (rename element) = plan.value element := by
  rw [Plan.value, Plan.value, agrees.slot, placed]
  exact agrees.states slot isWatched

end Agrees

theorem precedes_eq (plan : Plan) (source slot : Nat) :
    plan.precedes source slot = !Dependencies.isLate plan.order slot source := by
  rw [precedes, Dependencies.isLate, ← decide_not, decide_eq_decide, Nat.not_le]

end Plan

namespace Circuit

variable {circuit copy : Circuit} {rename : Nat → Nat} {clock : Clock}

/-- What the values of tags come from: slots that are not computed, and slots that the search for
an order reaches from tags. -/
def Watched (circuit : Circuit) (clock : Clock) (slot : Nat) : Prop :=
  ¬(circuit.prepared.planOf clock).computes slot ∨
    slot ∈ ((circuit.prepared.planOf clock).dependencies.early circuit.tagIds.length).order

theorem watched_closed {slot : Nat} (watched : circuit.Watched clock slot)
    (computed : (circuit.prepared.planOf clock).computes slot) {source : Nat}
    (reads : source ∈ (circuit.prepared.planOf clock).sources slot) :
    circuit.Watched clock source := by
  by_cases sourceComputed : (circuit.prepared.planOf clock).computes source
  · refine Or.inr (Dependencies.early_closed (watched.resolve_left (not_not.mpr computed)) ?_)
    rw [Plan.of_planOf, List.mem_filter]
    exact ⟨reads, sourceComputed⟩
  · exact Or.inl sourceComputed

namespace Regroups

variable (regroups : circuit.Regroups rename copy)

include regroups

theorem watched_tag {tag : ElementId} (isTag : circuit.IsTag tag) {slot : Nat}
    (placed : (circuit.prepared.planOf clock).slot tag = some slot) :
    circuit.Watched clock slot := by
  obtain ⟨place, bound, same⟩ := regroups.slot_tag isTag clock
  obtain rfl := Option.some.inj (same.symm.trans placed)
  by_cases computed : (circuit.prepared.planOf clock).computes place
  · refine Or.inr (Dependencies.mem_early bound ?_)
    rwa [Plan.includes_planOf]
  · exact Or.inl computed

variable (valid : circuit.validate = .ok ()) (copyValid : copy.validate = .ok ())

include valid copyValid

theorem agrees_planOf {watched : Nat → Prop}
    (closed : ∀ slot, watched slot → (circuit.prepared.planOf clock).computes slot →
      ∀ source ∈ (circuit.prepared.planOf clock).sources slot, watched source)
    (precedes : ∀ slot, watched slot → (circuit.prepared.planOf clock).computes slot →
      ∀ source ∈ (circuit.prepared.planOf clock).sources slot,
        (copy.prepared.planOf clock).precedes (circuit.slotShift rename copy clock source)
          (circuit.slotShift rename copy clock slot) =
            (circuit.prepared.planOf clock).precedes source slot) :
    Plan.Agrees rename (circuit.slotShift rename copy clock) watched
      (circuit.prepared.planOf clock) (copy.prepared.planOf clock) where
  injective := (regroups.shifts clock).injective
  scheduled := Plan.scheduled_planOf _ _
  twinScheduled := Plan.scheduled_planOf _ _
  clock := by rw [Plan.clock_planOf, Plan.clock_planOf]
  slot := regroups.slot_rename clock
  computes := regroups.computes_rename valid copyValid clock
  closed := closed
  precedes := precedes
  strategies slot _ _ strategy held := by
    obtain ⟨twin, twinHeld, _, moves⟩ := regroups.moves_planOf valid copyValid held
    exact ⟨twin, twinHeld, moves⟩
  states slot _ := by
    rw [Plan.states_planOf, Plan.states_planOf, Array.getElem?_map, Array.getElem?_map]
    cases held : (circuit.prepared.planOf clock).strategies[slot]? with
    | none => rw [regroups.idle_planOf held]
    | some strategy =>
        obtain ⟨twin, twinHeld, _, moves⟩ := regroups.moves_planOf valid copyValid held
        rw [twinHeld, Option.map_some, Option.map_some, Strategy.initial, Strategy.initial,
          moves.behaviour]

/-- If the pins through which loops drive tags keep their order, the plans of a circuit and of its
copy agree on what the values of tags come from. -/
theorem agrees_watched {kept : Nat → Bool}
    (loops : ∀ slot, kept slot ↔ (circuit.prepared.planOf clock).dependencies.Loops slot)
    (keeps : circuit.KeepsOrder rename clock kept) :
    Plan.Agrees rename (circuit.slotShift rename copy clock) (circuit.Watched clock)
      (circuit.prepared.planOf clock) (copy.prepared.planOf clock) := by
  classical
  have permutes := regroups.permutes_planOf valid copyValid clock
  have computes := regroups.computes_rename valid copyValid clock
  refine regroups.agrees_planOf valid copyValid
    (fun slot watched computed source => watched_closed watched computed) ?_
  intro slot watched computed source reads
  by_cases sourceComputed : (circuit.prepared.planOf clock).computes source
  · have twinLoops : ∀ slot, decide ((copy.prepared.planOf clock).dependencies.Loops slot) ↔
        (copy.prepared.planOf clock).dependencies.Loops slot := fun _ => decide_eq_true_iff
    have same : ∀ slot, decide ((copy.prepared.planOf clock).dependencies.Loops
        (circuit.slotShift rename copy clock slot)) = kept slot := by
      intro slot
      rw [Bool.eq_iff_iff, twinLoops, loops, permutes.loops_iff]
    have isOne : source ∈ (circuit.prepared.planOf clock).dependencies.of slot := by
      rw [Plan.of_planOf, List.mem_filter]
      exact ⟨reads, sourceComputed⟩
    rw [Plan.precedes_eq, Plan.precedes_eq, Plan.order_planOf, Plan.order_planOf,
      permutes.isLate_schedule loops twinLoops (regroups.of_kept valid copyValid same keeps)
        (regroups.tagIds_le clock) (regroups.tagSlots_rename valid copyValid clock)
        (watched.resolve_left (not_not.mpr computed)) isOne]
  · have scheduled : ∀ circuit : Circuit, (circuit.planOf clock).Scheduled :=
      fun _ => Plan.scheduled_planOf _ _
    rw [Plan.precedes_of_notMem (((scheduled _).member _).mpr computed)
        fun listed => sourceComputed (((scheduled _).member _).mp listed),
      Plan.precedes_of_notMem (((scheduled _).member _).mpr ((computes slot).trans computed))
        fun listed => sourceComputed ((computes source).symm.trans
          (((scheduled _).member _).mp listed))]

end Regroups

end Circuit

end RelayLogic
