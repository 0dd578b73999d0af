import RelayLogic.Proofs.Confining
import RelayLogic.Proofs.Settling

/-!
Inference in a circuit to which something was added. The pins that were there before are followed in
the same order and get the same directions, whatever is followed in between.
-/

namespace RelayLogic

namespace Circuit

variable {part : Circuit}

theorem owner_of_notRelay {pin : ElementId} (isPin : part.isPin pin)
    (notRelay : part.isRelay pin = false) :
    ∃ owner, part.owner pin = some owner ∧ ¬part.IsContainer owner := by
  rw [isRelay, isPin, Bool.true_and] at notRelay
  split at notRelay
  next element found =>
    obtain ⟨owner, owned, held⟩ := Option.bind_eq_some_iff.mp found
    refine ⟨owner, owned, ?_⟩
    rintro ⟨other, otherHeld, contains⟩
    rw [Option.some.inj (held.symm.trans otherHeld), contains] at notRelay
    contradiction
  next => contradiction

end Circuit

namespace Inference

variable {part whole : Circuit} {done twinDone : List ElementId} {inference twin : Inference}

/-- Whether inference is as far in a circuit as, on the pins that were there before, in a greater
one. -/
structure Spares (part : Circuit) (inference twin : Inference) : Prop where
  directions : ∀ pin < part.size, twin.circuit.direction pin = inference.circuit.direction pin
  queue : twin.queue.filter (· < part.size) = inference.queue

section

variable (annexed : part.Annexed whole)

include annexed

theorem Spares.orient (queued : Queued part done inference)
    (twinQueued : Queued whole twinDone twin) (spares : Spares part inference twin)
    {reached : Nat} (isPin : part.isPin reached) (notRelay : part.isRelay reached = false) :
    Spares part (Inference.orient part.adjacency inference reached)
      (Inference.orient whole.adjacency twin reached) := by
  have tree := annexed.sound.tree
  have bound : reached < part.size := Circuit.lt_size_of_isPin isPin
  have isOpen : isOpen twin.circuit reached = isOpen inference.circuit reached := by
    rw [Inference.isOpen, Inference.isOpen, spares.directions reached bound,
      twinQueued.alike.isSignalPin, queued.alike.isSignalPin,
      annexed.isSignalPin tree annexed.wholeSound.tree bound]
  by_cases opened : Inference.isOpen inference.circuit reached
  · obtain ⟨owner, owned, notContainer⟩ := Circuit.owner_of_notRelay isPin notRelay
    have ownerBound := tree.lt_of_owner owned
    have pins := annexed.pinsOf tree ownerBound notContainer
    have within : ∀ pin ∈ part.pinsOf owner, pin < part.size := fun pin member =>
      Circuit.lt_size_of_isPin (List.mem_filter.mp member).2
    obtain ⟨_, directions, queue⟩ := orient_open part.adjacency opened
      (by rwa [queued.alike.isPin]) (by rwa [queued.alike.owner])
      (by rw [queued.alike.pinsOf]; exact tree.nodup_pinsOf owner)
    obtain ⟨_, twinDirections, twinQueue⟩ := orient_open whole.adjacency (isOpen.trans opened)
      (by rwa [twinQueued.alike.isPin, annexed.isPin bound])
      (by rwa [twinQueued.alike.owner, annexed.owner bound])
      (by rw [twinQueued.alike.pinsOf, pins]; exact tree.nodup_pinsOf owner)
    rw [queued.alike.pinsOf] at directions queue
    rw [twinQueued.alike.pinsOf, pins] at twinDirections twinQueue
    constructor
    · intro pin inside
      rw [directions, twinDirections, spares.directions pin inside]
    · rw [queue, twinQueue, List.filter_append, spares.queue, List.filter_filter]
      refine congrArg _ (List.filter_congr fun pin member => ?_)
      have inside := within pin member
      rw [becomesInput, becomesInput, spares.directions pin inside, annexed.touches inside,
        decide_eq_true inside, Bool.true_and]
  · rwa [orient_closed opened, orient_closed (by rwa [isOpen])]

theorem Spares.orient_new (twinQueued : Queued whole twinDone twin)
    (spares : Spares part inference twin) {reached : Nat} (isPin : whole.isPin reached)
    (notRelay : whole.isRelay reached = false) (beyond : part.size ≤ reached) :
    Spares part inference (Inference.orient whole.adjacency twin reached) := by
  by_cases opened : isOpen twin.circuit reached
  · have wholeTree := annexed.wholeSound.tree
    obtain ⟨owner, owned, notContainer⟩ := Circuit.owner_of_notRelay isPin notRelay
    obtain ⟨element, held, isOwner⟩ := Option.bind_eq_some_iff.mp owned
    have ownerBeyond : part.size ≤ owner := by
      refine ((annexed.apart reached element beyond held).owner owner isOwner).resolve_right ?_
      intro contains
      have ownerBound : owner < part.size := by
        obtain ⟨container, containerHeld, _⟩ := contains
        exact Circuit.get?_lt containerHeld
      exact notContainer ((annexed.isContainer_iff ownerBound).mpr contains)
    have away : ∀ pin ∈ whole.pinsOf owner, part.size ≤ pin := by
      intro pin member
      by_contra inside
      have pinOwned := (wholeTree.mem_pinsOf.mp member).2
      rw [annexed.owner (Nat.lt_of_not_le inside)] at pinOwned
      exact absurd (annexed.sound.tree.lt_of_owner pinOwned) (Nat.not_lt_of_le ownerBeyond)
    obtain ⟨_, directions, queue⟩ := orient_open whole.adjacency opened
      (by rwa [twinQueued.alike.isPin]) (by rwa [twinQueued.alike.owner])
      (by rw [twinQueued.alike.pinsOf]; exact wholeTree.nodup_pinsOf owner)
    rw [twinQueued.alike.pinsOf] at directions queue
    constructor
    · intro pin inside
      have different : pin ≠ reached := (Nat.lt_of_lt_of_le inside beyond).ne
      have outside : pin ∉ whole.pinsOf owner := fun member =>
        Nat.not_lt_of_le (away pin member) inside
      rw [directions, if_neg different, if_neg (fun both => outside both.1),
        spares.directions pin inside]
    · rw [queue, List.filter_append, spares.queue, List.append_right_eq_self,
        List.filter_eq_nil_iff]
      intro pin member
      simpa using away pin (List.mem_filter.mp member).1
  · rwa [orient_closed opened]

theorem Spares.follow (queued : Queued part done inference)
    (twinQueued : Queued whole twinDone twin) (spares : Spares part inference twin)
    {endpoints : List ElementId}
    (ends : ∀ reached ∈ endpoints, part.isPin reached ∧ part.isRelay reached = false) :
    Spares part (endpoints.foldl (Inference.orient part.adjacency) inference)
      (endpoints.foldl (Inference.orient whole.adjacency) twin) := by
  induction endpoints generalizing inference twin with
  | nil => exact spares
  | cons reached endpoints ih =>
      obtain ⟨⟨isPin, notRelay⟩, rest⟩ := List.forall_mem_cons.mp ends
      exact ih (queued.advance (advances_orient part.adjacency inference reached).1)
        (twinQueued.advance (advances_orient whole.adjacency twin reached).1)
        (spares.orient annexed queued twinQueued isPin notRelay) rest

theorem Spares.follow_new (twinQueued : Queued whole twinDone twin)
    (spares : Spares part inference twin) {endpoints : List ElementId}
    (ends : ∀ reached ∈ endpoints, whole.isPin reached ∧ whole.isRelay reached = false ∧
      part.size ≤ reached) :
    Spares part inference (endpoints.foldl (Inference.orient whole.adjacency) twin) := by
  induction endpoints generalizing twin with
  | nil => exact spares
  | cons reached endpoints ih =>
      obtain ⟨⟨isPin, notRelay, beyond⟩, rest⟩ := List.forall_mem_cons.mp ends
      exact ih (twinQueued.advance (advances_orient whole.adjacency twin reached).1)
        (spares.orient_new annexed twinQueued isPin notRelay beyond) rest

theorem Spares.round (queued : Queued part done inference)
    (twinQueued : Queued whole twinDone twin) (spares : Spares part inference twin) {pin : Nat}
    {queue twinQueue : List ElementId} (waiting : inference.queue = pin :: queue)
    (twinWaiting : twin.queue = pin :: twinQueue) (inside : pin < part.size) :
    Spares part (Inference.round part inference pin queue)
      (Inference.round whole twin pin twinQueue) := by
  have queues := spares.queue
  rw [waiting, twinWaiting, List.filter_cons_of_pos (by simpa using inside)] at queues
  have rest : Spares part { inference with queue := queue } { twin with queue := twinQueue } :=
    ⟨spares.directions, (List.cons.inj queues).2⟩
  rw [Inference.round, Inference.round, annexed.endpoints inside]
  refine rest.follow annexed (queued.take waiting) (twinQueued.take twinWaiting) ?_
  intro reached member
  obtain ⟨_, notRelay, _, way⟩ := Circuit.mem_endpoints.mp member
  exact ⟨annexed.wired.way way, notRelay⟩

theorem Spares.round_new (twinQueued : Queued whole twinDone twin)
    (spares : Spares part inference twin) {pin : Nat} {twinQueue : List ElementId}
    (twinWaiting : twin.queue = pin :: twinQueue) (beyond : part.size ≤ pin) :
    Spares part inference (Inference.round whole twin pin twinQueue) := by
  have queues := spares.queue
  rw [twinWaiting, List.filter_cons_of_neg (by simpa using beyond)] at queues
  have rest : Spares part inference { twin with queue := twinQueue } := ⟨spares.directions, queues⟩
  refine rest.follow_new annexed (twinQueued.take twinWaiting) fun reached member => ?_
  obtain ⟨_, notRelay, _, way⟩ := Circuit.mem_endpoints.mp member
  exact ⟨annexed.wholeWired.way way, notRelay, annexed.confined annexed.wired beyond way⟩

theorem Spares.run {fuel twinFuel : Nat} (queued : Queued part done inference)
    (twinQueued : Queued whole twinDone twin) (enough : part.size ≤ done.length + fuel)
    (twinEnough : whole.size ≤ twinDone.length + twinFuel)
    (spares : Spares part inference twin) :
    Spares part (Inference.run part.adjacency fuel inference)
      (Inference.run whole.adjacency twinFuel twin) := by
  -- On the rounds of the greater circuit, of which some are rounds of the other one as well.
  induction twinFuel generalizing fuel inference twin done twinDone with
  | zero =>
      have bound := twinQueued.length_le
      have empty : twin.queue = [] := List.length_eq_zero_iff.mp (by omega)
      have queues := spares.queue
      rw [empty, List.filter_nil] at queues
      rwa [run_of_empty queues.symm, run_of_empty empty]
  | succ twinFuel ih =>
      have queues := spares.queue
      cases twinWaiting : twin.queue with
      | nil =>
          rw [twinWaiting, List.filter_nil] at queues
          rwa [run_of_empty queues.symm, run_of_empty twinWaiting]
      | cons pin twinQueue =>
          obtain ⟨_, ⟨⟩, twinLess, twinFollowed⟩ := twinQueued.run_round twinWaiting twinEnough
          rw [twinFollowed]
          rcases Nat.lt_or_ge pin part.size with inside | beyond
          · rw [twinWaiting, List.filter_cons_of_pos (by simpa using inside)] at queues
            obtain ⟨_, rfl, less, followed⟩ := queued.run_round queues.symm enough
            rw [followed]
            exact ih (queued.round queues.symm) (twinQueued.round twinWaiting) less twinLess
              (spares.round annexed queued twinQueued queues.symm twinWaiting inside)
          · exact ih queued (twinQueued.round twinWaiting) enough twinLess
              (spares.round_new annexed twinQueued twinWaiting beyond)

end

end Inference

namespace Circuit

variable {part whole : Circuit}

/-- Inference gives the pins that were there before the directions that it gave them before. -/
theorem Annexed.resolveDirections (annexed : part.Annexed whole) {pin : Nat}
    (bound : pin < part.size) :
    (whole.resolveDirections whole.adjacency).1.direction pin =
      (part.resolveDirections part.adjacency).1.direction pin := by
  have start : Inference.Spares part ⟨part, part.pinsDirected .input, 0⟩
      ⟨whole, whole.pinsDirected .input, 0⟩ := by
    refine ⟨fun _ inside => annexed.direction inside, ?_⟩
    rw [pinsDirected, List.filter_filter, pinsDirected]
    refine annexed.ids.filter_eq (fun id member => ?_) fun id _ beyond => ?_
    · have inside : id < part.size := List.mem_range.mp member
      rw [annexed.isPin inside, annexed.direction inside, decide_eq_true inside, Bool.true_and]
    · rw [decide_eq_false (Nat.not_lt_of_le beyond), Bool.false_and]
  have ended := start.run annexed (Inference.settling_start part).queued
    (Inference.settling_start whole).queued (Nat.le_add_left _ _) (Nat.le_add_left _ _)
  exact ended.directions pin bound

end Circuit

end RelayLogic
