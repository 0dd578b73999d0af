import RelayLogic.Proofs.Following

/-!
Inference comes to rest in every circuit, a drawn one or not: what it has followed once it finds
settled ever after, so a second inference from the directions of the first gives no direction.
-/

namespace RelayLogic.Inference

variable {circuit : Circuit} {adjacency : Adjacency} {before after inference : Inference}

/-- Some undirected pins get a direction; of those that become inputs, the ones that wires touch
join the queue. -/
structure Advances (adjacency : Adjacency) (before after : Inference) : Prop where
  alike : after.circuit.Alike before.circuit
  grows : Grows before after
  queue : ∃ added, after.queue = before.queue ++ added ∧ added.Nodup ∧ ∀ pin ∈ added,
    before.circuit.direction pin = .undefined ∧ after.circuit.direction pin = .input
  waiting : ∀ pin, after.circuit.direction pin = .input → adjacency.touches pin →
    before.circuit.direction pin = .input ∨ pin ∈ after.queue

namespace Advances

theorem refl (adjacency : Adjacency) (inference : Inference) :
    Advances adjacency inference inference where
  alike := rfl
  grows _ _ := rfl
  queue := ⟨[], by simp, List.nodup_nil, by simp⟩
  waiting _ input _ := Or.inl input

theorem trans {first second third : Inference} (before : Advances adjacency first second)
    (after : Advances adjacency second third) : Advances adjacency first third := by
  obtain ⟨early, earlyQueue, earlyUnique, earlyInputs⟩ := before.queue
  obtain ⟨late, lateQueue, lateUnique, lateInputs⟩ := after.queue
  have stays : ∀ pin ∈ early, third.circuit.direction pin = .input := by
    intro pin member
    have input := (earlyInputs pin member).2
    rw [after.grows pin (by simp [input]), input]
  have undirected : ∀ pin ∈ late, first.circuit.direction pin = .undefined := by
    intro pin member
    by_contra directed
    have same := before.grows pin directed
    rw [(lateInputs pin member).1] at same
    exact directed same.symm
  have separate : ∀ pin ∈ early, ∀ other ∈ late, pin ≠ other := by
    rintro pin member _ other rfl
    have input := (earlyInputs pin member).2
    rw [(lateInputs pin other).1] at input
    contradiction
  refine ⟨after.alike.trans before.alike, before.grows.trans after.grows, ?_, ?_⟩
  · refine ⟨early ++ late, by rw [lateQueue, earlyQueue, List.append_assoc],
      List.nodup_append.mpr ⟨earlyUnique, lateUnique, separate⟩, fun pin member => ?_⟩
    rcases List.mem_append.mp member with member | member
    · exact ⟨(earlyInputs pin member).1, stays pin member⟩
    · exact ⟨undirected pin member, (lateInputs pin member).2⟩
  · intro pin input touched
    rcases after.waiting pin input touched with input | queued
    · rcases before.waiting pin input touched with input | queued
      · exact Or.inl input
      · rw [lateQueue]
        exact Or.inr (List.mem_append_left _ queued)
    · exact Or.inr queued

end Advances

theorem grows_setDirection {id : ElementId} {direction : Direction} {queue : List ElementId}
    {changed : Nat} (undirected : inference.circuit.direction id = .undefined) :
    Grows inference ⟨inference.circuit.setDirection id direction, queue, changed⟩ := by
  intro pin directed
  have different : pin ≠ id := by
    rintro rfl
    exact directed undirected
  simp only [Circuit.direction_setDirection, different, false_and, ↓reduceIte]

theorem advances_output {reached : ElementId}
    (undirected : inference.circuit.direction reached = .undefined) :
    Advances adjacency inference (inference.set reached .output) where
  alike := Circuit.undirected_setDirection _ _ _
  grows := grows_setDirection undirected
  queue := ⟨[], by simp [set], List.nodup_nil, by simp⟩
  waiting pin input _ := by
    rw [set, Circuit.direction_setDirection] at input
    split at input
    · contradiction
    · exact Or.inl input

theorem advances_addInput (adjacency : Adjacency) (output : ElementId) {sibling : ElementId}
    (isPin : inference.circuit.isPin sibling) :
    Advances adjacency inference (addInput adjacency output inference sibling) := by
  unfold addInput
  split
  next => exact Advances.refl adjacency inference
  next opened =>
    have undirected : inference.circuit.direction sibling = .undefined := by
      simp only [Bool.or_eq_true, bne_iff_ne, not_or, not_not] at opened
      exact opened.2
    have directions : ∀ pin, (inference.circuit.setDirection sibling .input).direction pin =
        if pin = sibling then .input else inference.circuit.direction pin := by
      intro pin
      simp only [Circuit.direction_setDirection, isPin, and_true]
    have alike : (inference.circuit.setDirection sibling .input).Alike inference.circuit :=
      Circuit.undirected_setDirection _ _ _
    split
    next touched =>
      refine ⟨alike, grows_setDirection undirected, ⟨[sibling], rfl, ?_, ?_⟩, ?_⟩
      · exact List.nodup_singleton sibling
      · intro pin member
        rw [List.mem_singleton.mp member]
        exact ⟨undirected, by simp [set, directions]⟩
      · intro pin input _
        by_cases same : pin = sibling
        · exact Or.inr (by simp [same])
        · simp only [set, directions, same, ↓reduceIte] at input
          exact Or.inl input
    next untouched =>
      refine ⟨alike, grows_setDirection undirected, ⟨[], ?_, List.nodup_nil, by simp⟩, ?_⟩
      · simp [set]
      · intro pin input touched
        by_cases same : pin = sibling
        · rw [same] at touched
          contradiction
        · simp only [set, directions, same, ↓reduceIte] at input
          exact Or.inl input

def Settled (circuit : Circuit) (reached : ElementId) : Prop :=
  isOpen circuit reached → circuit.isPin reached = false ∧
    ∀ owner, circuit.owner reached = some owner →
      ∀ pin ∈ circuit.pinsOf owner, circuit.direction pin ≠ .undefined

theorem Settled.mono {reached : ElementId} (settled : Settled before.circuit reached)
    (advances : Advances adjacency before after) : Settled after.circuit reached := by
  intro opened
  simp only [Settled, isOpen, ← advances.alike.isSignalPin, ← advances.alike.isPin,
    ← advances.alike.owner, ← advances.alike.pinsOf, Bool.and_eq_true, beq_iff_eq] at settled opened
  have undirected : before.circuit.direction reached = .undefined := by
    by_contra directed
    have same := advances.grows reached directed
    rw [opened.1] at same
    exact directed same.symm
  obtain ⟨notPin, siblings⟩ := settled ⟨undirected, opened.2⟩
  refine ⟨notPin, fun owner owned pin member => ?_⟩
  have directed := siblings owner owned pin member
  rwa [advances.grows pin directed]

theorem addInput_directs (adjacency : Adjacency) {output sibling : ElementId}
    (isPin : inference.circuit.isPin sibling) (different : sibling ≠ output) :
    (addInput adjacency output inference sibling).circuit.direction sibling ≠ .undefined := by
  unfold addInput
  split
  next closed => simpa [different] using closed
  next => split <;> simp [set, Circuit.direction_setDirection, isPin]

theorem foldl_directs (adjacency : Adjacency) (output : ElementId) {siblings : List ElementId}
    (arePins : ∀ pin ∈ siblings, inference.circuit.isPin pin) :
    let made := siblings.foldl (addInput adjacency output) inference
    Advances adjacency inference made ∧
      ∀ pin ∈ siblings, pin ≠ output → made.circuit.direction pin ≠ .undefined := by
  induction siblings generalizing inference with
  | nil => exact ⟨Advances.refl adjacency inference, by simp⟩
  | cons sibling siblings ih =>
      have isPin := arePins sibling (List.mem_cons_self ..)
      have first := advances_addInput adjacency output isPin
      have others : ∀ pin ∈ siblings,
          (addInput adjacency output inference sibling).circuit.isPin pin := by
        intro pin member
        rw [first.alike.isPin]
        exact arePins pin (List.mem_cons_of_mem _ member)
      obtain ⟨rest, directed⟩ := ih others
      refine ⟨first.trans rest, fun pin member different => ?_⟩
      rcases List.mem_cons.mp member with rfl | member
      · have input := addInput_directs adjacency isPin different
        rw [List.foldl_cons, rest.grows pin input]
        exact input
      · exact directed pin member different

theorem noPin_of_isOpen {reached : ElementId} (grows : Grows (inference.set reached .output) after)
    (opened : isOpen after.circuit reached) : inference.circuit.isPin reached = false := by
  refine Bool.eq_false_iff.mpr fun isPin => ?_
  have given : (inference.set reached .output).circuit.direction reached = .output := by
    simp [set, Circuit.direction_setDirection, isPin]
  have same := grows reached (by simp [given])
  rw [isOpen, same, given] at opened
  contradiction

theorem advances_orient (adjacency : Adjacency) (inference : Inference) (reached : ElementId) :
    Advances adjacency inference (orient adjacency inference reached) ∧
      Settled (orient adjacency inference reached).circuit reached := by
  by_cases opened : isOpen inference.circuit reached
  · have undirected : inference.circuit.direction reached = .undefined := by
      simp only [isOpen, Bool.and_eq_true, beq_iff_eq] at opened
      exact opened.1
    have output : Advances adjacency inference (inference.set reached .output) :=
      advances_output undirected
    cases owned : (inference.set reached .output).circuit.owner reached with
    | none =>
        have unfolded : orient adjacency inference reached = inference.set reached .output := by
          simp only [orient, opened, ↓reduceIte, owned]
        rw [unfolded]
        refine ⟨output, fun stillOpen => ⟨?_, fun owner => by simp [owned]⟩⟩
        rw [output.alike.isPin]
        exact noPin_of_isOpen (fun _ _ => rfl) stillOpen
    | some owner =>
        have unfolded : orient adjacency inference reached =
            ((inference.set reached .output).circuit.pinsOf owner).foldl
              (addInput adjacency reached) (inference.set reached .output) := by
          simp only [orient, opened, ↓reduceIte, owned]
        have arePins : ∀ pin ∈ (inference.set reached .output).circuit.pinsOf owner,
            (inference.set reached .output).circuit.isPin pin :=
          fun pin member => (List.mem_filter.mp member).2
        obtain ⟨advances, directed⟩ := foldl_directs adjacency reached arePins
        rw [unfolded]
        refine ⟨output.trans advances, fun stillOpen => ?_⟩
        have noPin := noPin_of_isOpen advances.grows stillOpen
        rw [advances.alike.isPin, advances.alike.owner, advances.alike.pinsOf, output.alike.isPin]
        refine ⟨noPin, fun other otherOwned pin member => ?_⟩
        cases Option.some.inj (owned.symm.trans otherOwned)
        refine directed pin member ?_
        rintro rfl
        have isPin := (List.mem_filter.mp member).2
        rw [output.alike.isPin, noPin] at isPin
        contradiction
  · rw [orient_closed opened]
    exact ⟨Advances.refl adjacency inference, fun stillOpen => absurd stillOpen opened⟩

/-- A state of inference in which all that was followed is settled, and every input that a wire
touches was followed or waits for it. -/
structure Settling (circuit : Circuit) (done : List ElementId) (inference : Inference) : Prop where
  queued : Queued circuit done inference
  waiting : ∀ pin, inference.circuit.direction pin = .input → circuit.adjacency.touches pin →
    pin ∈ done ++ inference.queue
  settled : ∀ pin ∈ done, ∀ reached ∈ circuit.endpoints circuit.adjacency pin,
    Settled inference.circuit reached

theorem settling_start (circuit : Circuit) :
    Settling circuit [] ⟨circuit, circuit.pinsDirected .input, 0⟩ where
  queued :=
    ⟨rfl, by simp [Circuit.pinsDirected], by
      simpa [Circuit.pinsDirected, Circuit.ids] using List.nodup_range.filter _⟩
  waiting pin input _ := by
    have isPin : circuit.isPin pin := Circuit.isPin_of_direction (by rw [input]; decide)
    obtain ⟨element, _, held, _⟩ := Circuit.isPin_held isPin
    have bound : pin ∈ circuit.ids := List.mem_range.mpr (Circuit.get?_lt held)
    simp [Circuit.pinsDirected, bound, isPin, input]
  settled := by simp

theorem Queued.advance {done : List ElementId} (queued : Queued circuit done before)
    (advances : Advances adjacency before after) : Queued circuit done after := by
  obtain ⟨added, queue, unique, inputs⟩ := advances.queue
  have old : ∀ pin ∈ done ++ before.queue, after.circuit.direction pin = .input := by
    intro pin member
    have input := queued.inputs pin member
    rw [advances.grows pin (by simp [input]), input]
  refine ⟨advances.alike.trans queued.alike, ?_, ?_⟩
  · intro pin member
    rw [queue, ← List.append_assoc] at member
    rcases List.mem_append.mp member with member | member
    · exact old pin member
    · exact (inputs pin member).2
  · rw [queue, ← List.append_assoc]
    refine List.nodup_append.mpr ⟨queued.unique, unique, ?_⟩
    rintro pin member _ new rfl
    have input := queued.inputs pin member
    rw [(inputs pin new).1] at input
    contradiction

theorem foldl_orient (adjacency : Adjacency) (inference : Inference) (endpoints : List ElementId) :
    let made := endpoints.foldl (orient adjacency) inference
    Advances adjacency inference made ∧ ∀ reached ∈ endpoints, Settled made.circuit reached := by
  induction endpoints generalizing inference with
  | nil => exact ⟨Advances.refl adjacency inference, by simp⟩
  | cons first endpoints ih =>
      obtain ⟨advances, settled⟩ := advances_orient adjacency inference first
      obtain ⟨rest, others⟩ := ih (orient adjacency inference first)
      refine ⟨advances.trans rest, fun reached member => ?_⟩
      rcases List.mem_cons.mp member with rfl | member
      · exact settled.mono rest
      · exact others reached member

theorem Queued.take {done : List ElementId} (queued : Queued circuit done inference)
    {pin : ElementId} {queue : List ElementId} (waiting : inference.queue = pin :: queue) :
    Queued circuit (done ++ [pin]) { inference with queue := queue } := by
  obtain ⟨alike, inputs, unique⟩ := queued
  have moved : done ++ [pin] ++ queue = done ++ inference.queue := by simp [waiting]
  rw [← moved] at inputs unique
  exact ⟨alike, inputs, unique⟩

theorem Queued.round {done : List ElementId} (queued : Queued circuit done inference)
    {pin : ElementId} {queue : List ElementId} (waiting : inference.queue = pin :: queue) :
    Queued circuit (done ++ [pin]) (Inference.round circuit inference pin queue) :=
  (queued.take waiting).advance
    (foldl_orient circuit.adjacency { inference with queue := queue } _).1

theorem run_of_empty {adjacency : Adjacency} (empty : inference.queue = []) (fuel : Nat) :
    run adjacency fuel inference = inference := by
  cases fuel with
  | zero => rfl
  | succ fuel => simp only [run, empty]

theorem Queued.run_round {done : List ElementId} (queued : Queued circuit done inference)
    {pin : ElementId} {queue : List ElementId} (waiting : inference.queue = pin :: queue)
    {fuel : Nat} (enough : circuit.size ≤ done.length + fuel) :
    ∃ less, fuel = less + 1 ∧ circuit.size ≤ (done ++ [pin]).length + less ∧
      run circuit.adjacency fuel inference =
        run circuit.adjacency less (Inference.round circuit inference pin queue) := by
  have bound := queued.length_le
  rw [waiting, List.length_cons] at bound
  obtain ⟨less, rfl⟩ : ∃ less, fuel = less + 1 := ⟨fuel - 1, by omega⟩
  refine ⟨less, rfl, ?_, ?_⟩
  · rw [List.length_append, List.length_singleton]
    omega
  · simp only [run, waiting, Inference.round, queued.alike.endpoints]

theorem Settling.round {done : List ElementId} {pin : ElementId} {queue : List ElementId}
    (settling : Settling circuit done inference) (next : inference.queue = pin :: queue) :
    Settling circuit (done ++ [pin]) (round circuit inference pin queue) := by
  have moved : done ++ [pin] ++ queue = done ++ inference.queue := by
    rw [next, List.append_assoc, List.singleton_append]
  obtain ⟨advances, settled⟩ := foldl_orient circuit.adjacency { inference with queue := queue }
    (circuit.endpoints circuit.adjacency pin)
  obtain ⟨added, grown, _⟩ := advances.queue
  refine ⟨settling.queued.round next, fun other input touched => ?_,
    fun other member reached => ?_⟩
  · rcases advances.waiting other input touched with input | waits
    · have member := settling.waiting other input touched
      rw [← moved] at member
      rw [Inference.round, grown, ← List.append_assoc]
      exact List.mem_append_left _ member
    · exact List.mem_append_right _ waits
  · rcases List.mem_append.mp member with member | member
    · intro found
      have known : Settled { inference with queue := queue }.circuit reached :=
        settling.settled other member reached found
      exact known.mono advances
    · cases List.mem_singleton.mp member
      exact settled reached

theorem setDirection_noPin {id : ElementId} (noPin : circuit.isPin id = false)
    (direction : Direction) : circuit.setDirection id direction = circuit := by
  apply Circuit.ext_get?
  intro other
  rw [Circuit.get?_setDirection]
  split
  next same =>
    subst same
    cases held : circuit.get? other with
    | none => rfl
    | some element =>
        obtain ⟨name, kind, owner, children, evaluator, block⟩ := element
        simp only [Circuit.isPin, held] at noPin
        cases kind with
        | pin => contradiction
        | _ => rfl
  next => rfl

theorem foldl_addInput_directed {output : ElementId} {siblings : List ElementId}
    (directed : ∀ pin ∈ siblings, inference.circuit.direction pin ≠ .undefined) :
    siblings.foldl (addInput adjacency output) inference = inference := by
  induction siblings with
  | nil => rfl
  | cons sibling siblings ih =>
      have skipped : addInput adjacency output inference sibling = inference := by
        simp [addInput, directed sibling (List.mem_cons_self ..)]
      rw [List.foldl_cons, skipped]
      exact ih fun pin member => directed pin (List.mem_cons_of_mem _ member)

theorem orient_settled {reached : ElementId} (settled : Settled inference.circuit reached) :
    orient adjacency inference reached = inference := by
  by_cases opened : isOpen inference.circuit reached
  · obtain ⟨noPin, directed⟩ := settled opened
    have unset : inference.set reached .output = inference := by
      simp [set, noPin, setDirection_noPin noPin]
    simp only [orient, opened, ↓reduceIte, unset]
    cases owned : inference.circuit.owner reached with
    | none => rfl
    | some owner => exact foldl_addInput_directed (directed owner owned)
  · exact orient_closed opened

theorem foldl_orient_settled (adjacency : Adjacency) {endpoints : List ElementId}
    (settled : ∀ reached ∈ endpoints, Settled inference.circuit reached) :
    endpoints.foldl (orient adjacency) inference = inference := by
  induction endpoints with
  | nil => rfl
  | cons first endpoints ih =>
      rw [List.foldl_cons, orient_settled (settled first (List.mem_cons_self ..))]
      exact ih fun reached member => settled reached (List.mem_cons_of_mem _ member)

theorem run_settled (adjacency : Adjacency) (fuel : Nat) (queue : List ElementId)
    (settled : ∀ pin ∈ queue, ∀ reached ∈ circuit.endpoints adjacency pin,
      Settled circuit reached) :
    ∃ rest, run adjacency fuel ⟨circuit, queue, 0⟩ = ⟨circuit, rest, 0⟩ := by
  induction fuel generalizing queue with
  | zero => exact ⟨queue, rfl⟩
  | succ fuel ih =>
      cases queue with
      | nil => exact ⟨[], rfl⟩
      | cons pin queue =>
          have still : (circuit.endpoints adjacency pin).foldl (orient adjacency)
              ⟨circuit, queue, 0⟩ = ⟨circuit, queue, 0⟩ :=
            foldl_orient_settled adjacency (settled pin (List.mem_cons_self ..))
          simp only [run, still]
          exact ih queue fun other member => settled other (List.mem_cons_of_mem _ member)

end RelayLogic.Inference

namespace RelayLogic.Circuit

open Inference

theorem settling_end (circuit : Circuit) : ∃ done inference, Settling circuit done inference ∧
    inference.queue = [] ∧
      circuit.resolveDirections circuit.adjacency = (inference.circuit, inference.changed) := by
  have enough : circuit.size ≤ ([] : List ElementId).length + circuit.size := by simp
  obtain ⟨done, settling, ended⟩ := run_keeps (fun _ _ settling => settling.queued)
    (fun _ _ _ _ settling => settling.round) (settling_start circuit) enough
  exact ⟨done, _, settling, ended, rfl⟩

theorem resolveDirections_alike (circuit : Circuit) :
    (circuit.resolveDirections circuit.adjacency).1.Alike circuit := by
  obtain ⟨done, inference, settling, _, made⟩ := circuit.settling_end
  rw [made]
  exact settling.queued.alike

theorem resolveDirections_settled (circuit : Circuit) {pin reached : ElementId}
    (input : (circuit.resolveDirections circuit.adjacency).1.direction pin = .input)
    (joined : circuit.Joined pin reached) :
    Settled (circuit.resolveDirections circuit.adjacency).1 reached := by
  obtain ⟨done, inference, settling, ended, made⟩ := circuit.settling_end
  rw [made] at input ⊢
  have followed := settling.waiting pin input joined.touches
  rw [ended, List.append_nil] at followed
  exact settling.settled pin followed reached (mem_endpoints.mpr joined)

/-- Directions are inferred once and for all: from those that an inference leaves, another one
gives no pin a direction. -/
theorem resolveDirections_idempotent (circuit : Circuit) :
    let once := (circuit.resolveDirections circuit.adjacency).1
    once.resolveDirections circuit.adjacency = (once, 0) := by
  intro once
  have settled : ∀ pin ∈ once.pinsDirected .input,
      ∀ reached ∈ once.endpoints circuit.adjacency pin, Settled once reached := by
    intro pin member reached found
    have input : once.isPin pin ∧ once.direction pin = .input := by
      simpa using (List.mem_filter.mp member).2
    rw [circuit.resolveDirections_alike.endpoints, mem_endpoints] at found
    exact circuit.resolveDirections_settled input.2 found
  obtain ⟨rest, ended⟩ := run_settled circuit.adjacency once.size (once.pinsDirected .input) settled
  rw [resolveDirections, ended]

end RelayLogic.Circuit
