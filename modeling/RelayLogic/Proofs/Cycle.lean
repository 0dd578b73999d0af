import RelayLogic.Plan.Compile
import RelayLogic.Proofs.Calls
import RelayLogic.Proofs.Schedule
import Mathlib.Data.Finset.Prod
import Mathlib.Data.Finset.Card

/-!
What one cycle means. Every computed slot takes its strategy's value on the cells as its turn
finds them, and the dependencies that the order passes over are the reads of old values. Without
such reads the new cells are the only solution of the equations of all strategies.
-/

namespace RelayLogic

theorem nodup_eraseDups [BEq α] [LawfulBEq α] (list : List α) : list.eraseDups.Nodup := by
  induction length : list.length using Nat.strongRecOn generalizing list with
  | ind bound ih =>
      cases list with
      | nil => simp
      | cons first rest =>
          have shorter := List.length_filter_le (fun other => !other == first) rest
          simp only [List.length_cons] at length
          rw [List.eraseDups_cons]
          refine List.nodup_cons.mpr ⟨?_, ih _ (by omega) _ rfl⟩
          simp

namespace Strategy

theorem calculate_congr {strategy : Strategy} {states others : States} (now : Nat)
    (agree : ∀ source ∈ strategy.dependencies,
      states.getD source .unknown = others.getD source .unknown) :
    strategy.calculate states now = strategy.calculate others now := by
  have same : ∀ binding ∈ strategy.bindings, binding.read states = binding.read others := by
    intro binding member
    have source : binding.source ∈ strategy.dependencies := by
      rw [dependencies, List.mem_eraseDups]
      exact List.mem_map_of_mem member
    rw [Binding.read, Binding.read, agree _ source]
  have only : Binding.readOnly strategy.bindings states =
      Binding.readOnly strategy.bindings others := by
    unfold Binding.readOnly
    split
    next binding equal => exact same binding (by simp [equal])
    next => rfl
  have folded (kind : GateKind) : kind.evaluate strategy.bindings states =
      kind.evaluate strategy.bindings others := by
    unfold GateKind.evaluate
    split
    next first second rest equal =>
      rw [equal] at same
      rw [same first (by simp)]
      apply List.foldl_ext
      intro value binding member
      rw [same binding (List.mem_cons_of_mem first member)]
    next => rfl
  simp only [calculate, only, folded]

@[simp] theorem calculate_bindings (strategy : Strategy) (states : States) (now : Nat) :
    (strategy.calculate states now).2.bindings = strategy.bindings := by
  unfold calculate
  split <;> rfl

@[simp] theorem calculate_dependencies (strategy : Strategy) (states : States) (now : Nat) :
    (strategy.calculate states now).2.dependencies = strategy.dependencies := by
  simp only [dependencies, calculate_bindings]

end Strategy

namespace Plan

def computes (plan : Plan) (slot : Nat) : Bool :=
  plan.evaluable.getD slot false

def sources (plan : Plan) (slot : Nat) : List Nat :=
  match plan.strategies[slot]? with
  | some strategy => strategy.dependencies
  | none => []

def precedes (plan : Plan) (source slot : Nat) : Bool :=
  plan.order.idxOf source < plan.order.idxOf slot

/-- The cells as a slot finds them in its turn: those of preceding slots are new. -/
def found (plan : Plan) (slot : Nat) : States :=
  plan.states.mapIdx fun source old =>
    if plan.precedes source slot then plan.evaluate.states.getD source old else old

/-- The pairs of a computed slot and a computed source whose old value it reads. -/
def oldReads (plan : Plan) : Finset (Nat × Nat) :=
  (Finset.range plan.size ×ˢ Finset.range plan.size).filter fun pair =>
    plan.computes pair.1 ∧ plan.computes pair.2 ∧ pair.2 ∈ plan.sources pair.1 ∧
      ¬plan.precedes pair.2 pair.1

/-- Cells that satisfy the equation of every computed slot and keep all other values. -/
structure Solves (plan : Plan) (cells : States) : Prop where
  size : cells.size = plan.states.size
  kept : ∀ slot, ¬plan.computes slot → cells[slot]? = plan.states[slot]?
  equation : ∀ slot strategy, plan.computes slot → plan.strategies[slot]? = some strategy →
    cells[slot]? = some (strategy.calculate cells plan.clock.advance.cycle).1

/-- Another order of the same slots, each after the slots in it that it reads. -/
structure Respects (plan : Plan) (order : List Nat) : Prop where
  perm : order.Perm plan.order
  after : ∀ slot ∈ order, ∀ source ∈ plan.sources slot, source ∈ order →
    order.idxOf source < order.idxOf slot

inductive Reaches (start : Plan) : Plan → Prop
  | refl : Reaches start start
  | evaluate {plan} : Reaches start plan → Reaches start plan.evaluate
  | setValue {plan written element value} : Reaches start plan →
      plan.setValue element value = .ok written → Reaches start written

structure CycleMeaning (plan : Plan) : Prop where
  once : ∀ slot, plan.order.count slot = if plan.computes slot then 1 else 0
  rest : plan.evaluate = { plan with
    clock := plan.clock.advance
    strategies := plan.evaluate.strategies
    states := plan.evaluate.states }
  size : plan.evaluate.states.size = plan.states.size
  kept : ∀ slot, ¬plan.computes slot →
    plan.evaluate.states[slot]? = plan.states[slot]? ∧
      plan.evaluate.strategies[slot]? = plan.strategies[slot]?
  computed : ∀ slot, plan.computes slot → ∃ strategy, plan.strategies[slot]? = some strategy ∧
    plan.evaluate.states[slot]? =
      some (strategy.calculate (plan.found slot) plan.clock.advance.cycle).1 ∧
    plan.evaluate.strategies[slot]? =
      some (strategy.calculate (plan.found slot) plan.clock.advance.cycle).2
  counted : plan.oldReads.card = plan.cyclesDetected
  solution : plan.cyclesDetected = 0 → ∀ cells, plan.Solves cells ↔ cells = plan.evaluate.states
  forgets : plan.cyclesDetected = 0 → ∀ states : States, states.size = plan.states.size →
    (∀ slot, ¬plan.computes slot → states[slot]? = plan.states[slot]?) →
      { plan with states := states }.evaluate = plan.evaluate
  overwrites : plan.cyclesDetected = 0 → ∀ element value written, plan.isEvaluable element →
    plan.setValue element value = .ok written → written.evaluate = plan.evaluate
  anyOrder : plan.cyclesDetected = 0 → ∀ order, plan.Respects order →
    { plan with order := order }.evaluate = { plan.evaluate with order := order }

variable {plan : Plan}

def sweep (plan : Plan) (slots : List Nat) : Plan :=
  slots.foldl calculate plan

theorem evaluate_eq_sweep (plan : Plan) :
    plan.evaluate = { plan with clock := plan.clock.advance }.sweep plan.order := rfl

theorem sweep_cons (plan : Plan) (slot : Nat) (slots : List Nat) :
    plan.sweep (slot :: slots) = (plan.calculate slot).sweep slots := rfl

theorem sweep_append (plan : Plan) (before after : List Nat) :
    plan.sweep (before ++ after) = (plan.sweep before).sweep after :=
  List.foldl_append

theorem calculate_of_some {slot : Nat} {strategy : Strategy}
    (held : plan.strategies[slot]? = some strategy) :
    plan.calculate slot = { plan with
      strategies := plan.strategies.setIfInBounds slot
        (strategy.calculate plan.states plan.clock.cycle).2
      states := plan.states.setIfInBounds slot
        (strategy.calculate plan.states plan.clock.cycle).1 } := by
  simp only [calculate, held]

theorem calculate_rest (plan : Plan) (slot : Nat) :
    plan.calculate slot = { plan with
      strategies := (plan.calculate slot).strategies
      states := (plan.calculate slot).states } := by
  cases held : plan.strategies[slot]? with
  | none => simp only [calculate, held]
  | some strategy => rw [calculate_of_some held]

theorem calculate_sizes (plan : Plan) (slot : Nat) :
    (plan.calculate slot).strategies.size = plan.strategies.size ∧
      (plan.calculate slot).states.size = plan.states.size := by
  cases held : plan.strategies[slot]? with
  | none => simp [calculate, held]
  | some strategy => simp [calculate_of_some held]

theorem calculate_other {slot other : Nat} (different : slot ≠ other) :
    (plan.calculate slot).strategies[other]? = plan.strategies[other]? ∧
      (plan.calculate slot).states[other]? = plan.states[other]? := by
  cases held : plan.strategies[slot]? with
  | none => simp [calculate, held]
  | some strategy =>
      simp [calculate_of_some held, Array.getElem?_setIfInBounds_ne different]

theorem calculate_sources (plan : Plan) (slot other : Nat) :
    (plan.calculate slot).sources other = plan.sources other := by
  cases held : plan.strategies[slot]? with
  | none => simp only [calculate, held]
  | some strategy =>
      obtain ⟨bound, equal⟩ := Array.getElem?_eq_some_iff.mp held
      by_cases same : slot = other
      · subst other
        simp [sources, calculate_of_some held, bound, equal]
      · simp only [sources, (calculate_other same).1]

theorem sweep_rest (slots : List Nat) (plan : Plan) :
    plan.sweep slots = { plan with
      strategies := (plan.sweep slots).strategies
      states := (plan.sweep slots).states } := by
  induction slots generalizing plan with
  | nil => rfl
  | cons slot slots ih =>
      rw [sweep_cons, ih, calculate_rest]

theorem sweep_sizes (slots : List Nat) (plan : Plan) :
    (plan.sweep slots).strategies.size = plan.strategies.size ∧
      (plan.sweep slots).states.size = plan.states.size := by
  induction slots generalizing plan with
  | nil => exact ⟨rfl, rfl⟩
  | cons slot slots ih =>
      obtain ⟨strategies, states⟩ := ih (plan.calculate slot)
      exact ⟨strategies.trans (calculate_sizes plan slot).1,
        states.trans (calculate_sizes plan slot).2⟩

theorem sweep_sources (slots : List Nat) (plan : Plan) (other : Nat) :
    (plan.sweep slots).sources other = plan.sources other := by
  induction slots generalizing plan with
  | nil => rfl
  | cons slot slots ih => rw [sweep_cons, ih, calculate_sources]

theorem sweep_other {slots : List Nat} {other : Nat} (absent : other ∉ slots) (plan : Plan) :
    (plan.sweep slots).strategies[other]? = plan.strategies[other]? ∧
      (plan.sweep slots).states[other]? = plan.states[other]? := by
  induction slots generalizing plan with
  | nil => exact ⟨rfl, rfl⟩
  | cons slot slots ih =>
      have different : slot ≠ other := (List.ne_of_not_mem_cons absent).symm
      obtain ⟨strategies, states⟩ := ih (List.not_mem_of_not_mem_cons absent) (plan.calculate slot)
      exact ⟨strategies.trans (calculate_other different).1,
        states.trans (calculate_other different).2⟩

/-- A slot on the list is computed once, from the cells that the slots before it leave. -/
theorem sweep_at {before after : List Nat} {slot : Nat} {strategy : Strategy}
    (unique : (before ++ slot :: after).Nodup) (sizes : plan.states.size = plan.strategies.size)
    (held : plan.strategies[slot]? = some strategy) :
    (plan.sweep (before ++ slot :: after)).states[slot]? =
        some (strategy.calculate (plan.sweep before).states plan.clock.cycle).1 ∧
      (plan.sweep (before ++ slot :: after)).strategies[slot]? =
        some (strategy.calculate (plan.sweep before).states plan.clock.cycle).2 := by
  have notBefore : slot ∉ before := by
    intro member
    exact (List.nodup_append.mp unique).2.2 slot member slot List.mem_cons_self rfl
  have notAfter : slot ∉ after :=
    (List.nodup_cons.mp (List.nodup_append.mp unique).2.1).1
  have reached : (plan.sweep before).strategies[slot]? = some strategy :=
    (sweep_other notBefore plan).1.trans held
  have clock : (plan.sweep before).clock = plan.clock := by rw [sweep_rest]
  have bound : slot < (plan.sweep before).strategies.size :=
    (Array.getElem?_eq_some_iff.mp reached).1
  have cell : slot < (plan.sweep before).states.size := by
    rw [(sweep_sizes before plan).2, sizes, ← (sweep_sizes before plan).1]
    exact bound
  obtain ⟨strategies, states⟩ := sweep_other notAfter ((plan.sweep before).calculate slot)
  rw [sweep_append, sweep_cons, states, strategies, calculate_of_some reached, clock]
  simp [cell, bound]

theorem mem_oldReads {slot source : Nat} :
    (slot, source) ∈ plan.oldReads ↔ slot < plan.size ∧ source < plan.size ∧
      plan.computes slot ∧ plan.computes source ∧ source ∈ plan.sources slot ∧
      ¬plan.precedes source slot := by
  rw [oldReads, Finset.mem_filter, Finset.mem_product, Finset.mem_range, Finset.mem_range,
    and_assoc]

/-- What compilation establishes of a plan and cycles and writes keep. -/
structure Scheduled (plan : Plan) : Prop where
  sizes : plan.states.size = plan.strategies.size
  evaluableSize : plan.evaluable.size = plan.strategies.size
  unique : plan.order.Nodup
  member : ∀ slot, slot ∈ plan.order ↔ plan.computes slot
  counted : plan.oldReads.card = plan.cyclesDetected

theorem computes_lt {slot : Nat} (computed : plan.computes slot) : slot < plan.evaluable.size := by
  by_contra beyond
  simp [computes, Array.getD, beyond] at computed

theorem Scheduled.strategy (scheduled : plan.Scheduled) {slot : Nat}
    (computed : plan.computes slot) : ∃ strategy, plan.strategies[slot]? = some strategy := by
  have bound := computes_lt computed
  rw [scheduled.evaluableSize] at bound
  exact ⟨plan.strategies[slot], Array.getElem?_eq_getElem bound⟩

theorem idxOf_lt_iff_mem {before after : List Nat} {slot : Nat}
    (unique : (before ++ slot :: after).Nodup) (other : Nat) :
    (before ++ slot :: after).idxOf other < (before ++ slot :: after).idxOf slot ↔
      other ∈ before := by
  have notBefore : slot ∉ before := by
    intro member
    exact (List.nodup_append.mp unique).2.2 slot member slot List.mem_cons_self rfl
  rw [List.idxOf_append_of_notMem notBefore, List.idxOf_cons_self]
  by_cases member : other ∈ before
  · have bound := List.idxOf_lt_length_of_mem member
    simp only [List.idxOf_append_of_mem member, member, iff_true]
    omega
  · simp only [List.idxOf_append_of_notMem member, member, iff_false]
    omega

theorem evaluate_rest (plan : Plan) :
    plan.evaluate = { plan with
      clock := plan.clock.advance
      strategies := plan.evaluate.strategies
      states := plan.evaluate.states } :=
  sweep_rest plan.order { plan with clock := plan.clock.advance }

theorem evaluate_sizes (plan : Plan) :
    plan.evaluate.strategies.size = plan.strategies.size ∧
      plan.evaluate.states.size = plan.states.size :=
  sweep_sizes plan.order { plan with clock := plan.clock.advance }

theorem found_eq_sweep {before after : List Nat} {slot : Nat}
    (split : plan.order = before ++ slot :: after) (unique : plan.order.Nodup) :
    plan.found slot = ({ plan with clock := plan.clock.advance }.sweep before).states := by
  have sizes := evaluate_sizes plan
  rw [split] at unique
  apply Array.ext_getElem?
  intro source
  have precedes : plan.precedes source slot = decide (source ∈ before) := by
    simp only [Plan.precedes, split, idxOf_lt_iff_mem unique]
  simp only [found, Array.getElem?_mapIdx, precedes]
  by_cases member : source ∈ before
  · have absent : source ∉ slot :: after := by
      intro later
      exact (List.nodup_append.mp unique).2.2 source member source later rfl
    have final : plan.evaluate.states[source]? =
        ({ plan with clock := plan.clock.advance }.sweep before).states[source]? := by
      rw [evaluate_eq_sweep, split, sweep_append]
      exact (sweep_other absent _).2
    rw [← final]
    by_cases bound : source < plan.states.size
    · have newBound : source < plan.evaluate.states.size := by omega
      simp [member, bound, newBound, Array.getD]
    · have newBound : ¬source < plan.evaluate.states.size := by omega
      simp [bound, newBound]
  · rw [(sweep_other member _).2]
    simp [member]

theorem Scheduled.kept (scheduled : plan.Scheduled) {slot : Nat} (idle : ¬plan.computes slot) :
    plan.evaluate.states[slot]? = plan.states[slot]? ∧
      plan.evaluate.strategies[slot]? = plan.strategies[slot]? := by
  have absent : slot ∉ plan.order := fun member => idle ((scheduled.member slot).mp member)
  exact (sweep_other absent { plan with clock := plan.clock.advance }).symm

theorem Scheduled.computed (scheduled : plan.Scheduled) {slot : Nat} {strategy : Strategy}
    (computed : plan.computes slot) (held : plan.strategies[slot]? = some strategy) :
    plan.evaluate.states[slot]? =
        some (strategy.calculate (plan.found slot) plan.clock.advance.cycle).1 ∧
      plan.evaluate.strategies[slot]? =
        some (strategy.calculate (plan.found slot) plan.clock.advance.cycle).2 := by
  obtain ⟨before, after, split⟩ := List.append_of_mem ((scheduled.member slot).mpr computed)
  have unique := scheduled.unique
  rw [split] at unique
  rw [found_eq_sweep split scheduled.unique, evaluate_eq_sweep, split]
  exact sweep_at unique scheduled.sizes held

structure Sorted (plan : Plan) (order : List Nat) : Prop where
  unique : order.Nodup
  member : ∀ slot, slot ∈ order ↔ plan.computes slot
  after : ∀ slot ∈ order, ∀ source ∈ plan.sources slot, source ∈ order →
    order.idxOf source < order.idxOf slot

theorem Scheduled.sorted (scheduled : plan.Scheduled) (acyclic : plan.cyclesDetected = 0) :
    plan.Sorted plan.order := by
  refine ⟨scheduled.unique, scheduled.member, ?_⟩
  intro slot slotMember source reads sourceMember
  by_contra late
  have empty : plan.oldReads = ∅ := Finset.card_eq_zero.mp (scheduled.counted.trans acyclic)
  have slotComputed := (scheduled.member slot).mp slotMember
  have sourceComputed := (scheduled.member source).mp sourceMember
  have slotBound := computes_lt slotComputed
  have sourceBound := computes_lt sourceComputed
  rw [scheduled.evaluableSize] at slotBound sourceBound
  have present : (slot, source) ∈ plan.oldReads := by
    refine mem_oldReads.mpr ⟨slotBound, sourceBound, slotComputed, sourceComputed, reads, ?_⟩
    simpa [precedes] using late
  rw [empty] at present
  exact Finset.notMem_empty _ present

theorem sources_of_some {slot : Nat} {strategy : Strategy}
    (held : plan.strategies[slot]? = some strategy) :
    plan.sources slot = strategy.dependencies := by
  simp only [sources, held]

theorem getElem?_found (plan : Plan) (slot source : Nat) : (plan.found slot)[source]? =
    if plan.precedes source slot then plan.evaluate.states[source]? else plan.states[source]? := by
  have sizes := evaluate_sizes plan
  simp only [found, Array.getElem?_mapIdx]
  by_cases bound : source < plan.states.size
  · have newBound : source < plan.evaluate.states.size := by omega
    cases plan.precedes source slot <;> simp [bound, newBound, Array.getD]
  · have newBound : ¬source < plan.evaluate.states.size := by omega
    simp [bound, newBound]

theorem precedes_of_notMem {slot source : Nat} (member : slot ∈ plan.order)
    (absent : source ∉ plan.order) : plan.precedes source slot = false := by
  have bound := List.idxOf_lt_length_of_mem member
  simp only [precedes, List.idxOf_eq_length absent, decide_eq_false_iff_not]
  omega

theorem Sorted.found_agrees (sorted : plan.Sorted plan.order) {slot : Nat}
    (member : slot ∈ plan.order) {source : Nat} (reads : source ∈ plan.sources slot) :
    (plan.found slot)[source]? = plan.evaluate.states[source]? := by
  rw [getElem?_found]
  by_cases listed : source ∈ plan.order
  · have first : plan.precedes source slot := by
      simp only [precedes, decide_eq_true_eq]
      exact sorted.after slot member source reads listed
    rw [if_pos first]
  · have kept : plan.evaluate.states[source]? = plan.states[source]? :=
      (sweep_other listed { plan with clock := plan.clock.advance }).2
    rw [kept, ite_self]

theorem Scheduled.settled (scheduled : plan.Scheduled) (sorted : plan.Sorted plan.order)
    {slot : Nat} {strategy : Strategy} (computed : plan.computes slot)
    (held : plan.strategies[slot]? = some strategy) :
    plan.evaluate.states[slot]? =
        some (strategy.calculate plan.evaluate.states plan.clock.advance.cycle).1 ∧
      plan.evaluate.strategies[slot]? =
        some (strategy.calculate plan.evaluate.states plan.clock.advance.cycle).2 := by
  have same : strategy.calculate (plan.found slot) plan.clock.advance.cycle =
      strategy.calculate plan.evaluate.states plan.clock.advance.cycle := by
    apply Strategy.calculate_congr
    intro source reads
    rw [← sources_of_some held] at reads
    have agree := sorted.found_agrees ((scheduled.member slot).mpr computed) reads
    simp only [Array.getD_eq_getD_getElem?, agree]
  rw [← same]
  exact scheduled.computed computed held

theorem Scheduled.solves (scheduled : plan.Scheduled) (sorted : plan.Sorted plan.order) :
    plan.Solves plan.evaluate.states where
  size := (evaluate_sizes plan).2
  kept _ idle := (scheduled.kept idle).1
  equation _ _ computed held := (scheduled.settled sorted computed held).1

/-- The equations have one solution: each cell follows from cells earlier in the order. -/
theorem Scheduled.solution_unique (scheduled : plan.Scheduled) (sorted : plan.Sorted plan.order)
    {first second : States} (firstSolves : plan.Solves first) (secondSolves : plan.Solves second) :
    first = second := by
  have idle : ∀ slot, ¬plan.computes slot → first[slot]? = second[slot]? := by
    intro slot idle
    rw [firstSolves.kept slot idle, secondSolves.kept slot idle]
  have computed : ∀ position slot, plan.computes slot → plan.order.idxOf slot = position →
      first[slot]? = second[slot]? := by
    intro position
    induction position using Nat.strongRecOn with
    | ind position ih =>
        intro slot computed placed
        obtain ⟨strategy, held⟩ := scheduled.strategy computed
        rw [firstSolves.equation slot strategy computed held,
          secondSolves.equation slot strategy computed held]
        have same : strategy.calculate first plan.clock.advance.cycle =
            strategy.calculate second plan.clock.advance.cycle := by
          apply Strategy.calculate_congr
          intro source reads
          rw [← sources_of_some held] at reads
          have agree : first[source]? = second[source]? := by
            by_cases sourceComputed : plan.computes source
            · have earlier := sorted.after slot ((sorted.member slot).mpr computed) source reads
                ((sorted.member source).mpr sourceComputed)
              exact ih _ (by omega) source sourceComputed rfl
            · exact idle source sourceComputed
          simp only [Array.getD_eq_getD_getElem?, agree]
        rw [same]
  apply Array.ext_getElem?
  intro slot
  by_cases slotComputed : plan.computes slot
  · exact computed _ slot slotComputed rfl
  · exact idle slot slotComputed

theorem evaluate_agrees {other : Plan} (scheduled : plan.Scheduled)
    (sorted : plan.Sorted plan.order) (otherScheduled : other.Scheduled)
    (otherSorted : other.Sorted other.order) (strategies : other.strategies = plan.strategies)
    (evaluable : other.evaluable = plan.evaluable) (clock : other.clock = plan.clock)
    (size : other.states.size = plan.states.size)
    (idle : ∀ slot, ¬plan.computes slot → other.states[slot]? = plan.states[slot]?) :
    other.evaluate.states = plan.evaluate.states ∧
      other.evaluate.strategies = plan.evaluate.strategies := by
  have computes : ∀ slot, other.computes slot = plan.computes slot := by
    intro slot
    rw [Plan.computes, Plan.computes, evaluable]
  have solves := otherScheduled.solves otherSorted
  have states : other.evaluate.states = plan.evaluate.states := by
    apply scheduled.solution_unique sorted _ (scheduled.solves sorted)
    refine ⟨solves.size.trans size, ?_, ?_⟩
    · intro slot notComputed
      rw [solves.kept slot (by rwa [computes]), idle slot notComputed]
    · intro slot strategy computed held
      rw [← clock]
      exact solves.equation slot strategy (by rwa [computes]) (by rwa [strategies])
  refine ⟨states, ?_⟩
  apply Array.ext_getElem?
  intro slot
  by_cases computed : plan.computes slot
  · obtain ⟨strategy, held⟩ := scheduled.strategy computed
    rw [(scheduled.settled sorted computed held).2,
      (otherScheduled.settled otherSorted (by rwa [computes]) (by rwa [strategies])).2,
      states, clock]
  · rw [(scheduled.kept computed).2, (otherScheduled.kept (by rwa [computes])).2, strategies]

theorem Scheduled.reordered (scheduled : plan.Scheduled) (acyclic : plan.cyclesDetected = 0)
    {order : List Nat} (respects : plan.Respects order) :
    { plan with order := order }.Scheduled ∧ { plan with order := order }.Sorted order := by
  have member : ∀ slot, slot ∈ order ↔ plan.computes slot := by
    intro slot
    rw [respects.perm.mem_iff, scheduled.member]
  have unique : order.Nodup := respects.perm.nodup_iff.mpr scheduled.unique
  refine ⟨⟨scheduled.sizes, scheduled.evaluableSize, unique, member, ?_⟩,
    ⟨unique, member, respects.after⟩⟩
  refine (Finset.card_eq_zero.mpr (Finset.eq_empty_of_forall_notMem ?_)).trans acyclic.symm
  rintro ⟨slot, source⟩ present
  obtain ⟨_, _, slotComputed, sourceComputed, reads, late⟩ := mem_oldReads.mp present
  have earlier := respects.after slot ((member slot).mpr slotComputed) source reads
    ((member source).mpr sourceComputed)
  simp [precedes, earlier] at late

theorem Scheduled.withStates (scheduled : plan.Scheduled) {states : States}
    (size : states.size = plan.states.size) : { plan with states := states }.Scheduled :=
  ⟨size.trans scheduled.sizes, scheduled.evaluableSize, scheduled.unique, scheduled.member,
    scheduled.counted⟩

theorem Scheduled.forgets (scheduled : plan.Scheduled) (acyclic : plan.cyclesDetected = 0)
    {states : States} (size : states.size = plan.states.size)
    (idle : ∀ slot, ¬plan.computes slot → states[slot]? = plan.states[slot]?) :
    { plan with states := states }.evaluate = plan.evaluate := by
  have other := scheduled.withStates size
  obtain ⟨newStates, newStrategies⟩ := evaluate_agrees scheduled (scheduled.sorted acyclic) other
    (other.sorted acyclic) rfl rfl rfl size idle
  rw [evaluate_rest, newStates, newStrategies]
  exact (evaluate_rest plan).symm

theorem Scheduled.anyOrder (scheduled : plan.Scheduled) (acyclic : plan.cyclesDetected = 0)
    {order : List Nat} (respects : plan.Respects order) :
    { plan with order := order }.evaluate = { plan.evaluate with order := order } := by
  obtain ⟨other, otherSorted⟩ := scheduled.reordered acyclic respects
  obtain ⟨newStates, newStrategies⟩ := evaluate_agrees scheduled (scheduled.sorted acyclic) other
    otherSorted rfl rfl rfl rfl (fun _ _ => rfl)
  rw [evaluate_rest, newStates, newStrategies]
  rw [evaluate_rest plan]

theorem setValue_eq {element : ElementId} {value : Tri} {written : Plan}
    (set : plan.setValue element value = .ok written) :
    ∃ slot, plan.slot element = some slot ∧
      written = { plan with states := plan.states.setIfInBounds slot value } := by
  unfold setValue at set
  split at set
  next slot found => exact ⟨slot, found, (Except.ok.inj set).symm⟩
  next => contradiction

theorem Scheduled.overwrites (scheduled : plan.Scheduled) (acyclic : plan.cyclesDetected = 0)
    {element : ElementId} {value : Tri} {written : Plan} (computed : plan.isEvaluable element)
    (set : plan.setValue element value = .ok written) : written.evaluate = plan.evaluate := by
  obtain ⟨slot, found, rfl⟩ := setValue_eq set
  have slotComputed : plan.computes slot := by
    simpa [isEvaluable, found, computes, Array.getD_eq_getD_getElem?] using computed
  apply scheduled.forgets acyclic (by simp)
  intro other idle
  have different : slot ≠ other := by
    rintro rfl
    exact idle slotComputed
  exact Array.getElem?_setIfInBounds_ne different

theorem computes_evaluate (plan : Plan) : plan.evaluate.computes = plan.computes := by
  rw [evaluate_rest]
  rfl

theorem precedes_evaluate (plan : Plan) : plan.evaluate.precedes = plan.precedes := by
  rw [evaluate_rest]
  rfl

theorem sources_evaluate (plan : Plan) : plan.evaluate.sources = plan.sources := by
  funext slot
  rw [evaluate_eq_sweep, sweep_sources]
  rfl

theorem Scheduled.evaluate (scheduled : plan.Scheduled) : plan.evaluate.Scheduled := by
  obtain ⟨strategiesSize, statesSize⟩ := evaluate_sizes plan
  have order : plan.evaluate.order = plan.order := by rw [evaluate_rest]
  have computes := computes_evaluate plan
  have reads : plan.evaluate.oldReads = plan.oldReads := by
    ext ⟨slot, source⟩
    rw [mem_oldReads, mem_oldReads, Plan.size, Plan.size, strategiesSize, computes,
      precedes_evaluate, sources_evaluate]
  constructor
  · rw [statesSize, strategiesSize, scheduled.sizes]
  · rw [strategiesSize, ← scheduled.evaluableSize, evaluate_rest]
  · rw [order]
    exact scheduled.unique
  · rw [order, computes]
    exact scheduled.member
  · rw [reads, scheduled.counted, evaluate_rest]

theorem Scheduled.setValue (scheduled : plan.Scheduled) {element : ElementId} {value : Tri}
    {written : Plan} (set : plan.setValue element value = .ok written) : written.Scheduled := by
  obtain ⟨slot, _, rfl⟩ := setValue_eq set
  exact scheduled.withStates (by simp)

theorem Reaches.scheduled {start : Plan} (scheduled : start.Scheduled)
    (reached : start.Reaches plan) : plan.Scheduled := by
  induction reached with
  | refl => exact scheduled
  | evaluate _ ih => exact ih.evaluate
  | setValue _ set ih => exact ih.setValue set

/-- The late dependencies of a schedule, as pairs, are the reads of old values. -/
theorem card_oldReads {dependencies : Dependencies} (unique : plan.order.Nodup)
    (member : ∀ slot, slot ∈ plan.order ↔ plan.computes slot)
    (of : ∀ slot, dependencies.of slot = (plan.sources slot).filter plan.computes)
    (bound : ∀ slot, plan.computes slot → slot < plan.size) :
    plan.oldReads.card = dependencies.lateCount plan.order := by
  let pairs := plan.order.flatMap fun slot => (dependencies.late plan.order slot).map (slot, ·)
  have pairsUnique : pairs.Nodup := by
    rw [List.nodup_flatMap]
    constructor
    · intro slot _
      apply List.Nodup.map (Prod.mk_right_injective slot)
      apply List.Nodup.filter
      rw [of]
      apply List.Nodup.filter
      unfold sources
      split
      · exact nodup_eraseDups _
      · exact List.nodup_nil
    · apply unique.imp
      intro first second different
      simp only [Function.onFun, List.disjoint_left, List.mem_map]
      rintro pair ⟨source, _, rfl⟩ ⟨other, _, equal⟩
      exact different (congrArg Prod.fst equal).symm
  have same : plan.oldReads = pairs.toFinset := by
    ext ⟨slot, source⟩
    simp only [mem_oldReads, List.mem_toFinset, pairs, List.mem_flatMap, List.mem_map,
      Dependencies.late, of, List.mem_filter, Dependencies.isLate, Prod.mk.injEq, member,
      precedes, decide_eq_true_eq]
    constructor
    · rintro ⟨_, _, slotComputed, sourceComputed, reads, late⟩
      exact ⟨slot, slotComputed, source, ⟨⟨reads, sourceComputed⟩, by omega⟩, rfl, rfl⟩
    · rintro ⟨_, slotComputed, _, ⟨⟨reads, sourceComputed⟩, late⟩, rfl, rfl⟩
      exact ⟨bound _ slotComputed, bound _ sourceComputed, slotComputed, sourceComputed, reads,
        by omega⟩
  rw [same, List.toFinset_card_of_nodup pairsUnique, List.length_flatMap]
  simp only [List.length_map, Dependencies.lateCount]

def dependencies (plan : Plan) : Dependencies :=
  ⟨plan.strategies.map (·.dependencies), plan.evaluable⟩

theorem includes_dependencies (size : plan.evaluable.size = plan.strategies.size) :
    plan.dependencies.includes = plan.computes := by
  funext slot
  apply Bool.eq_iff_iff.mpr
  simp only [Dependencies.includes, dependencies, Array.size_map, Bool.and_eq_true,
    decide_eq_true_eq]
  exact ⟨fun both => both.2, fun computed => ⟨size ▸ computes_lt computed, computed⟩⟩

theorem of_dependencies (size : plan.evaluable.size = plan.strategies.size) (slot : Nat) :
    plan.dependencies.of slot = (plan.sources slot).filter plan.computes := by
  rw [Dependencies.of, includes_dependencies size]
  congr 1
  simp only [dependencies, sources, Array.getD_eq_getD_getElem?, Array.getElem?_map]
  cases plan.strategies[slot]? <;> rfl

theorem order_planOf (circuit : Circuit) (clock : Clock) :
    (circuit.planOf clock).order = (circuit.planOf clock).dependencies.schedule.order := rfl

theorem states_planOf (circuit : Circuit) (clock : Clock) :
    (circuit.planOf clock).states = (circuit.planOf clock).strategies.map (·.initial) := rfl

theorem clock_planOf (circuit : Circuit) (clock : Clock) :
    (circuit.planOf clock).clock = clock := rfl

theorem scheduled_planOf (circuit : Circuit) (clock : Clock) :
    (circuit.planOf clock).Scheduled := by
  have order := order_planOf circuit clock
  have cycles : (circuit.planOf clock).cyclesDetected =
      (circuit.planOf clock).dependencies.schedule.cycles := rfl
  have states := states_planOf circuit clock
  have size : (circuit.planOf clock).evaluable.size = (circuit.planOf clock).strategies.size :=
    Array.size_map
  generalize circuit.planOf clock = plan at *
  have of := of_dependencies size
  obtain ⟨placed, member⟩ := plan.dependencies.schedule_placed
  rw [includes_dependencies size, ← order] at member
  have unique : plan.order.Nodup := order ▸ placed.unique
  refine ⟨by simp [states], size, unique, member, ?_⟩
  have bound : ∀ slot, plan.computes slot → slot < plan.size := fun _ computed =>
    (computes_lt computed).trans_eq size
  rw [card_oldReads unique member of bound, order, cycles, placed.counted, Nat.zero_add]

theorem includes_planOf (circuit : Circuit) (clock : Clock) :
    (circuit.planOf clock).dependencies.includes = (circuit.planOf clock).computes :=
  includes_dependencies (scheduled_planOf circuit clock).evaluableSize

theorem of_planOf (circuit : Circuit) (clock : Clock) (slot : Nat) :
    (circuit.planOf clock).dependencies.of slot =
      ((circuit.planOf clock).sources slot).filter (circuit.planOf clock).computes :=
  of_dependencies (scheduled_planOf circuit clock).evaluableSize slot

theorem Scheduled.cycleMeaning (scheduled : plan.Scheduled) : plan.CycleMeaning where
  once slot := by
    rw [scheduled.unique.count]
    simp only [scheduled.member]
  rest := evaluate_rest plan
  size := (evaluate_sizes plan).2
  kept _ idle := scheduled.kept idle
  computed _ computed := by
    obtain ⟨strategy, held⟩ := scheduled.strategy computed
    exact ⟨strategy, held, scheduled.computed computed held⟩
  counted := scheduled.counted
  solution acyclic cells := by
    have sorted := scheduled.sorted acyclic
    constructor
    · intro solves
      exact scheduled.solution_unique sorted solves (scheduled.solves sorted)
    · rintro rfl
      exact scheduled.solves sorted
  forgets acyclic _ size idle := scheduled.forgets acyclic size idle
  overwrites acyclic _ _ _ computed set := scheduled.overwrites acyclic computed set
  anyOrder acyclic _ respects := scheduled.anyOrder acyclic respects

end Plan

theorem Circuit.compile_ok (circuit : Circuit) {resolution : Nat} (nonzero : resolution ≠ 0) :
    circuit.compile resolution =
      .ok (circuit.prepared.planOf (.new resolution), circuit.prepared) := by
  simp only [compile, nonzero, ↓reduceIte]

theorem Circuit.scheduled_of_compile {circuit prepared : Circuit} {resolution : Nat} {plan : Plan}
    (compiled : circuit.compile resolution = .ok (plan, prepared)) : plan.Scheduled := by
  unfold compile at compiled
  split at compiled
  next => contradiction
  next =>
    obtain ⟨same, _⟩ := Prod.mk.inj (Except.ok.inj compiled)
    exact same ▸ Plan.scheduled_planOf _ _

/-- What one cycle does to a compiled plan, in every state that cycles and writes lead to. -/
theorem Circuit.compile_cycleMeaning (circuit : Circuit) {resolution : Nat}
    (nonzero : resolution ≠ 0) :
    ∃ compiled prepared, circuit.compile resolution = .ok (compiled, prepared) ∧
      ∀ plan, compiled.Reaches plan → plan.CycleMeaning := by
  refine ⟨circuit.prepared.planOf (.new resolution), circuit.prepared, ?_, ?_⟩
  · simp only [compile, nonzero, ↓reduceIte]
  · intro plan reached
    exact (reached.scheduled (Plan.scheduled_planOf _ _)).cycleMeaning

def Circuit.holding : Circuit :=
  (Circuit.empty "plant").afterCalls [
    .addProject "cell", .addContext 1 "line", .addTag "switch" .true, .addTag "lamp" .true,
    .addSignal 2 "switch" (some 3), .addSignal 2 "lamp" (some 4), .addGate 2 .and "hold",
    .addWire 2 6 11 false false, .addWire 2 9 12 false false, .addWire 2 14 8 false false]

theorem Circuit.holding_cycleMeaning : 10 ≠ 0 ∧
    ∃ compiled prepared, holding.compile 10 = .ok (compiled, prepared) ∧
      ∀ plan, compiled.Reaches plan → plan.CycleMeaning :=
  ⟨by decide, compile_cycleMeaning holding (by decide)⟩

example : (Circuit.holding.prepared.planOf (.new 10)).oldReads = {(2, 1)} := by decide +kernel

end RelayLogic
