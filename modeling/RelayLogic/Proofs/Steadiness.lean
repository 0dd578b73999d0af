import RelayLogic.Proofs.Agreement

/-!
Where regrouping leaves feedback loops alone. The search for an order of evaluation starts at the
tags, so where it cuts the loops that tags depend on is decided by the order in which tags are bound
to outputs on loops.
-/

namespace RelayLogic

namespace Plan

variable {plan : Plan}

theorem Scheduled.ends (scheduled : plan.Scheduled) (acyclic : plan.cyclesDetected = 0)
    (slot : Nat) : ¬plan.dependencies.Loops slot := by
  have sorted := scheduled.sorted acyclic
  have of := of_dependencies scheduled.evaluableSize
  have listed : ∀ position slot, slot ∈ plan.order → plan.order.idxOf slot = position →
      ¬plan.dependencies.Loops slot := by
    intro position
    induction position using Nat.strongRecOn with
    | ind position ih =>
        intro slot member placed
        refine not_not.mpr (Acc.intro _ fun source isOne => not_not.mp ?_)
        rw [of, List.mem_filter, ← scheduled.member] at isOne
        have earlier := sorted.after slot member source isOne.1 isOne.2
        exact ih _ (placed ▸ earlier) source isOne.2 rfl
  refine not_not.mpr (Acc.intro _ fun source isOne => not_not.mp ?_)
  rw [of, List.mem_filter, ← scheduled.member] at isOne
  exact listed _ source isOne.2 rfl

end Plan

namespace Circuit

variable {circuit : Circuit} {clock : Clock}

/-- Whether a cell on a feedback loop, or behind one, drives an element through an input. -/
def LoopDriven (circuit prepared : Circuit) (plan : Plan) (element input : ElementId) : Prop :=
  ∃ output source, circuit.DrawnTo prepared plan element input output ∧
    (circuit.simulated output).bind plan.slot = some source ∧ plan.dependencies.Loops source

/-- Whether the inputs through which loops drive a tag keep their order in the netlist, for every
tag. -/
def Steady (circuit : Circuit) (resolution : Nat) : Prop :=
  ∀ plan prepared, circuit.compile resolution = .ok (plan, prepared) →
    ∀ tag first second, circuit.IsTag tag → first < second →
      circuit.LoopDriven prepared plan tag first → circuit.LoopDriven prepared plan tag second →
        circuit.numberOf first < circuit.numberOf second

theorem LoopDriven.lt_size {prepared : Circuit} {plan : Plan} {element input : Nat}
    (driven : circuit.LoopDriven prepared plan element input) : input < circuit.size := by
  obtain ⟨_, _, ⟨evaluated, -, -, -, -, -⟩, -, -⟩ := driven
  cases owned : circuit.owner input with
  | none =>
      rw [simulated, mappedTag, owned] at evaluated
      contradiction
  | some owner =>
      obtain ⟨element, held, _⟩ := Option.bind_eq_some_iff.mp owned
      exact get?_lt held

theorem steady_of_acyclic {resolution : Nat} {plan : Plan} {prepared : Circuit}
    (compiled : circuit.compile resolution = .ok (plan, prepared))
    (acyclic : plan.cyclesDetected = 0) : circuit.Steady resolution := by
  intro again prepared compiledAgain tag first second _ _ one _
  rw [compiled] at compiledAgain
  cases compiledAgain
  obtain ⟨_, source, _, _, loops⟩ := one
  exact absurd loops ((scheduled_of_compile compiled).ends acyclic source)

theorem Tree.loopDriven (tree : circuit.Tree Kind.Owns)
    (settled : circuit.Every Element.Settled) (valid : circuit.validate = .ok ())
    {kept : Nat → Bool}
    (loops : ∀ slot, kept slot ↔ (circuit.prepared.planOf clock).dependencies.Loops slot)
    {element pin : ElementId}
    (driven : circuit.prepared.DrivenBy (circuit.slots clock) kept element pin) :
    circuit.LoopDriven circuit.prepared (circuit.prepared.planOf clock) element pin := by
  have readied := tree.readied (tree.pinned isPin_of_owns) settled
  have directed := tree.directed valid
  have slot : (circuit.prepared.planOf clock).slot = ((circuit.slots clock).idxOf? ·) := by
    funext element
    rw [slot_planOf, ← slots, readied.slots]
  obtain ⟨binding, member, isKept⟩ := driven
  unfold bindingsFor at member
  split at member
  next asked =>
    simp only [Bool.and_eq_true, beq_iff_eq] at asked
    obtain ⟨⟨_, evaluated⟩, isInput⟩ := asked
    obtain ⟨connection, connected, bound⟩ := List.mem_filterMap.mp member
    obtain ⟨isOutput, source, _⟩ := binding?_eq_some.mp bound
    rw [connections, readied.adjacency, readied.direction] at connected
    obtain ⟨different, way⟩ := Adjacency.walk_sound connected
    rw [readied.evaluatorOf] at evaluated source
    rw [← slot] at source
    have input := isInput
    rw [readied.direction] at input
    exact ⟨connection.pin, binding.source, ⟨evaluated, isInput, isOutput, different,
      ⟨_, (directed.way_iff input).mp way⟩, ⟨_, source⟩⟩, source, (loops _).mp isKept⟩
  next => contradiction

theorem Tree.keepsOrder (tree : circuit.Tree Kind.Owns) (settled : circuit.Every Element.Settled)
    (valid : circuit.validate = .ok ()) {resolution : Nat} (nonzero : resolution ≠ 0)
    (steady : circuit.Steady resolution) {kept : Nat → Bool} (loops : ∀ slot, kept slot ↔
      (circuit.prepared.planOf (.new resolution)).dependencies.Loops slot) :
    circuit.KeepsOrder circuit.place (.new resolution) kept := by
  intro tag first second isTag bound less one other
  rw [place_of_lt bound, place_of_lt (Nat.lt_trans less bound)]
  exact steady _ _ (circuit.compile_ok nonzero) tag first second isTag less
    (tree.loopDriven settled valid loops one) (tree.loopDriven settled valid loops other)

end Circuit

end RelayLogic
