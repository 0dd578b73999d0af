import RelayLogic.Proofs.Bindings
import RelayLogic.Proofs.Regrouping
import RelayLogic.Proofs.Settling

/-!
Inference on a circuit and on its copy. The pins of one container are queued and followed in the
same order in both, and what is followed in between, in other containers, does not touch them.
-/

namespace RelayLogic

namespace Inference

variable {circuit copy : Circuit} {rename : Nat → Nat} {zone : Option ElementId}
  {done twinDone : List ElementId} {inference made twin twinMade : Inference}

structure Rests (circuit : Circuit) (zone : Option ElementId) (before after : Inference) :
    Prop where
  directions : ∀ pin, circuit.zone pin = zone →
    after.circuit.direction pin = before.circuit.direction pin
  queue : after.queue.filter (circuit.zone · = zone) = before.queue.filter (circuit.zone · = zone)

theorem zone_of_pinsOf {belongs : Kind → Kind → Prop} (tree : circuit.Tree belongs)
    {owner first second : ElementId} (one : first ∈ circuit.pinsOf owner)
    (other : second ∈ circuit.pinsOf owner) : circuit.zone first = circuit.zone second :=
  Circuit.zone_congr ((tree.mem_pinsOf.mp one).2.trans (tree.mem_pinsOf.mp other).2.symm)

theorem Oriented.rests {reached : ElementId} (oriented : Oriented circuit inference reached made)
    (tree : circuit.Tree Kind.Owns) (elsewhere : circuit.zone reached ≠ zone) :
    Rests circuit zone inference made := by
  cases oriented with
  | closed same _ => exact same ▸ ⟨fun _ _ => rfl, rfl⟩
  | @opened owner _ member _ _ directions queue =>
      have apart : ∀ pin ∈ circuit.pinsOf owner, circuit.zone pin ≠ zone := by
        intro pin owned
        rwa [zone_of_pinsOf tree owned member]
      constructor
      · intro pin zoned
        exact direction_outside member directions fun owned => apart pin owned zoned
      · rw [queue, List.filter_append, List.append_right_eq_self, List.filter_eq_nil_iff]
        intro pin added
        simpa using apart pin (List.mem_filter.mp added).1

theorem Queued.rests (queued : Queued circuit done inference) (tree : circuit.Tree Kind.Owns)
    (valid : circuit.validate = .ok ()) {root : ElementId} {endpoints : List ElementId}
    (joined : ∀ reached ∈ endpoints, circuit.Joined root reached)
    (elsewhere : ∀ reached ∈ endpoints, circuit.zone reached ≠ zone) :
    Rests circuit zone inference
      (endpoints.foldl (Inference.orient circuit.adjacency) inference) := by
  induction endpoints generalizing inference with
  | nil => exact ⟨fun _ _ => rfl, rfl⟩
  | cons reached endpoints ih =>
      obtain ⟨first, rest⟩ := List.forall_mem_cons.mp joined
      obtain ⟨firstApart, restApart⟩ := List.forall_mem_cons.mp elsewhere
      have oriented := oriented tree valid queued.alike first
      have step := oriented.rests tree firstApart
      have later := ih (queued.orient tree oriented) rest restApart
      exact ⟨fun pin zoned => (later.directions pin zoned).trans (step.directions pin zoned),
        later.queue.trans step.queue⟩

theorem Queued.round_rests (queued : Queued circuit done inference) (tree : circuit.Tree Kind.Owns)
    (valid : circuit.validate = .ok ()) {pin : ElementId} {queue : List ElementId}
    (waiting : inference.queue = pin :: queue) (elsewhere : circuit.zone pin ≠ zone)
    (inside : ∀ reached, circuit.Joined pin reached → circuit.zone reached = circuit.zone pin) :
    Rests circuit zone inference (Inference.round circuit inference pin queue) := by
  have joined : ∀ reached ∈ circuit.endpoints circuit.adjacency pin, circuit.Joined pin reached :=
    fun reached member => Circuit.mem_endpoints.mp member
  have rests := (queued.take waiting).rests tree valid joined fun reached member => by
    rwa [inside reached (joined reached member)]
  refine ⟨rests.directions, rests.queue.trans ?_⟩
  simp [waiting, elsewhere]

/-- Whether inference is as far in one container as in the copy of the container. -/
structure Matches (circuit : Circuit) (rename : Nat → Nat) (copy : Circuit)
    (zone : Option ElementId) (inference twin : Inference) : Prop where
  directions : ∀ pin, circuit.zone pin = zone →
    twin.circuit.direction (rename pin) = inference.circuit.direction pin
  queue : twin.queue.filter (copy.zone · = zone.map rename) =
    (inference.queue.filter (circuit.zone · = zone)).map rename

variable (regroups : circuit.Regroups rename copy)

include regroups

theorem zone_map_iff (pin : Nat) : copy.zone (rename pin) = zone.map rename ↔
    circuit.zone pin = zone := by
  rw [regroups.zone_rename]
  exact (Option.map_injective regroups.injective).eq_iff

theorem Matches.orient (same : Matches circuit rename copy zone inference twin)
    {reached : ElementId} (zoned : circuit.zone reached = zone)
    (oriented : Oriented circuit inference reached made)
    (twinOriented : Oriented copy twin (rename reached) twinMade) :
    Matches circuit rename copy zone made twinMade := by
  have tree := regroups.tree
  have copyTree := regroups.copyTree
  have reachedSame := same.directions reached zoned
  cases oriented with
  | closed kept directed =>
      cases twinOriented with
      | closed twinKept _ => exact kept ▸ twinKept ▸ same
      | opened twinLogic twinMember undirected =>
          rcases directed with isSignalPin | directed
          · rw [← regroups.isSignalPin_rename,
              (copyTree.logic_pin twinLogic twinMember).1] at isSignalPin
            contradiction
          · exact absurd (reachedSame ▸ undirected) directed
  | @opened owner isLogic member undirected _ directions queue =>
      cases twinOriented with
      | closed _ twinDirected =>
          rcases twinDirected with isSignalPin | directed
          · rw [regroups.isSignalPin_rename, (tree.logic_pin isLogic member).1] at isSignalPin
            contradiction
          · exact absurd (reachedSame.trans undirected) directed
      | @opened twinOwner _ twinMember _ _ twinDirections twinQueue =>
          have pins : copy.pinsOf twinOwner = (circuit.pinsOf owner).map rename := by
            rw [← regroups.pinsOf_rename]
            refine congrArg _ (copyTree.pinsOf_unique twinMember ?_)
            rw [regroups.pinsOf_rename]
            exact List.mem_map_of_mem member
          have owned : ∀ pin, rename pin ∈ copy.pinsOf twinOwner ↔ pin ∈ circuit.pinsOf owner := by
            intro pin
            rw [pins, List.mem_map_of_injective regroups.injective]
          have inZone : ∀ pin ∈ circuit.pinsOf owner, circuit.zone pin = zone := fun pin listed =>
            (zone_of_pinsOf tree listed member).trans zoned
          constructor
          · intro pin pinZoned
            simp only [directions, twinDirections, owned, same.directions pin pinZoned,
              regroups.injective.eq_iff]
          · have becomes : ∀ pin ∈ circuit.pinsOf owner,
                (twin.becomesInput (rename reached) (rename pin) &&
                  copy.adjacency.touches (rename pin)) =
                    (inference.becomesInput reached pin && circuit.adjacency.touches pin) := by
              intro pin listed
              rw [becomesInput, becomesInput, same.directions pin (inZone pin listed), bne, bne,
                regroups.beq_rename, regroups.touches_rename]
            rw [queue, twinQueue, pins, List.filter_append, List.filter_append, same.queue,
              List.map_append, List.filter_map, List.filter_map, List.filter_filter,
              List.filter_filter]
            refine congrArg _ (congrArg _ (List.filter_congr fun pin listed => ?_))
            simp only [Function.comp_apply, becomes pin listed, zone_map_iff regroups]

theorem Matches.follow (valid : circuit.validate = .ok ()) (copyValid : copy.validate = .ok ())
    (queued : Queued circuit done inference) (twinQueued : Queued copy twinDone twin)
    (same : Matches circuit rename copy zone inference twin) {root : ElementId}
    {endpoints : List ElementId}
    (joined : ∀ reached ∈ endpoints, circuit.Joined root reached ∧
      copy.Joined (rename root) (rename reached) ∧ circuit.zone reached = zone) :
    Matches circuit rename copy zone
      (endpoints.foldl (Inference.orient circuit.adjacency) inference)
      ((endpoints.map rename).foldl (Inference.orient copy.adjacency) twin) := by
  induction endpoints generalizing inference twin with
  | nil => exact same
  | cons reached endpoints ih =>
      obtain ⟨⟨first, twinFirst, zoned⟩, rest⟩ := List.forall_mem_cons.mp joined
      have oriented := Inference.oriented regroups.tree valid queued.alike first
      have twinOriented := Inference.oriented regroups.copyTree copyValid twinQueued.alike twinFirst
      exact ih (queued.orient regroups.tree oriented)
        (twinQueued.orient regroups.copyTree twinOriented)
        (same.orient regroups zoned oriented twinOriented) rest

theorem Matches.round (valid : circuit.validate = .ok ()) (copyValid : copy.validate = .ok ())
    (queued : Queued circuit done inference) (twinQueued : Queued copy twinDone twin)
    (same : Matches circuit rename copy zone inference twin) {pin : ElementId}
    {queue twinQueue : List ElementId} (waiting : inference.queue = pin :: queue)
    (twinWaiting : twin.queue = rename pin :: twinQueue) (zoned : circuit.zone pin = zone) :
    Matches circuit rename copy zone (Inference.round circuit inference pin queue)
      (Inference.round copy twin (rename pin) twinQueue) := by
  have rest : Matches circuit rename copy zone { inference with queue := queue }
      { twin with queue := twinQueue } := by
    refine ⟨same.directions, ?_⟩
    have queues := same.queue
    rw [waiting, twinWaiting,
      List.filter_cons_of_pos (by simpa using (zone_map_iff regroups pin).mpr zoned),
      List.filter_cons_of_pos (by simpa using zoned), List.map_cons] at queues
    exact (List.cons.inj queues).2
  have joined : ∀ reached ∈ circuit.endpoints circuit.adjacency pin, circuit.Joined pin reached ∧
      copy.Joined (rename pin) (rename reached) ∧ circuit.zone reached = zone := by
    intro reached member
    have joined := Circuit.mem_endpoints.mp member
    refine ⟨joined, Circuit.mem_endpoints.mp ?_,
      (joined.zone_eq fun _ _ => regroups.zone_of_link).trans zoned⟩
    rw [regroups.endpoints_rename]
    exact List.mem_map_of_mem member
  unfold Inference.round
  rw [regroups.endpoints_rename]
  exact rest.follow regroups valid copyValid (queued.take waiting) (twinQueued.take twinWaiting)
    joined

theorem Matches.rests (same : Matches circuit rename copy zone inference twin)
    (rests : Rests circuit zone inference made)
    (twinRests : Rests copy (zone.map rename) twin twinMade) :
    Matches circuit rename copy zone made twinMade := by
  refine ⟨fun pin zoned => ?_, ?_⟩
  · rw [twinRests.directions _ ((zone_map_iff regroups pin).mpr zoned), same.directions pin zoned,
      rests.directions pin zoned]
  · rw [twinRests.queue, same.queue, rests.queue]

theorem Matches.run (valid : circuit.validate = .ok ()) (copyValid : copy.validate = .ok ())
    {fuel twinFuel : Nat} (queued : Queued circuit done inference)
    (twinQueued : Queued copy twinDone twin) (enough : circuit.size ≤ done.length + fuel)
    (twinEnough : copy.size ≤ twinDone.length + twinFuel)
    (same : Matches circuit rename copy zone inference twin) :
    Matches circuit rename copy zone (Inference.run circuit.adjacency fuel inference)
      (Inference.run copy.adjacency twinFuel twin) := by
  -- Either run goes on alone while its next pin is elsewhere, and both go on together otherwise.
  induction total : fuel + twinFuel using Nat.strongRecOn
    generalizing fuel twinFuel inference twin done twinDone with
  | ind total ih =>
      by_cases elsewhere : ∃ pin queue, inference.queue = pin :: queue ∧ circuit.zone pin ≠ zone
      · obtain ⟨pin, queue, waiting, apart⟩ := elsewhere
        have rests := queued.round_rests regroups.tree valid waiting apart fun _ joined =>
          joined.zone_eq fun _ _ => regroups.zone_of_link
        obtain ⟨less, rfl, lessEnough, followed⟩ := queued.run_round waiting enough
        rw [followed]
        exact ih (less + twinFuel) (by omega) (queued.round waiting) twinQueued
          lessEnough twinEnough (same.rests regroups rests ⟨fun _ _ => rfl, rfl⟩) rfl
      by_cases twinElsewhere : ∃ pin queue, twin.queue = pin :: queue ∧
          copy.zone pin ≠ zone.map rename
      · obtain ⟨pin, queue, waiting, apart⟩ := twinElsewhere
        have rests := twinQueued.round_rests regroups.copyTree copyValid waiting apart
          fun _ joined => joined.zone_eq fun _ _ => regroups.copy_zone_of_link
        obtain ⟨less, rfl, lessEnough, followed⟩ := twinQueued.run_round waiting twinEnough
        rw [followed]
        exact ih (fuel + less) (by omega) queued
          (twinQueued.round waiting) enough lessEnough
          (same.rests regroups ⟨fun _ _ => rfl, rfl⟩ rests) rfl
      simp only [not_exists, not_and, not_not] at elsewhere twinElsewhere
      have queues := same.queue
      cases waiting : inference.queue with
      | nil =>
          have empty : twin.queue = [] := by
            cases twinWaiting : twin.queue with
            | nil => rfl
            | cons pin queue =>
                rw [waiting, twinWaiting, List.filter_cons_of_pos
                  (by simpa using twinElsewhere pin queue twinWaiting)] at queues
                contradiction
          rwa [run_of_empty waiting, run_of_empty empty]
      | cons pin queue =>
          have zoned := elsewhere pin queue waiting
          rw [waiting, List.filter_cons_of_pos (by simpa using zoned), List.map_cons] at queues
          cases twinWaiting : twin.queue with
          | nil =>
              rw [twinWaiting] at queues
              contradiction
          | cons twinPin twinQueue =>
              rw [twinWaiting, List.filter_cons_of_pos
                (by simpa using twinElsewhere twinPin twinQueue twinWaiting)] at queues
              obtain ⟨rfl, _⟩ := List.cons.inj queues
              obtain ⟨less, rfl, lessEnough, followed⟩ := queued.run_round waiting enough
              obtain ⟨twinLess, rfl, twinLessEnough, twinFollowed⟩ :=
                twinQueued.run_round twinWaiting twinEnough
              rw [followed, twinFollowed]
              exact ih (less + twinLess) (by omega) (queued.round waiting)
                (twinQueued.round twinWaiting) lessEnough
                twinLessEnough (same.round regroups valid copyValid queued twinQueued waiting
                  twinWaiting zoned) rfl

end Inference

namespace Circuit

variable {circuit copy : Circuit} {rename : Nat → Nat}

/-- Inference gives pins and their copies the same directions. -/
theorem Regroups.resolveDirections_rename (regroups : circuit.Regroups rename copy)
    (valid : circuit.validate = .ok ()) (copyValid : copy.validate = .ok ()) (pin : Nat) :
    (copy.resolveDirections copy.adjacency).1.direction (rename pin) =
      (circuit.resolveDirections circuit.adjacency).1.direction pin := by
  have inputs : (copy.pinsDirected .input).filter
      (copy.zone · = (circuit.zone pin).map rename) =
        ((circuit.pinsDirected .input).filter (circuit.zone · = circuit.zone pin)).map rename := by
    rw [pinsDirected, pinsDirected, List.filter_filter, List.filter_filter]
    refine regroups.filter_ids (fun id => ?_) fun first second bound less firstSeen secondSeen => ?_
    · rw [← regroups.zone_rename, regroups.isPin_rename, regroups.direction_rename]
      simp only [regroups.zone_eq_iff]
    · simp only [Bool.and_eq_true, decide_eq_true_eq] at firstSeen secondSeen
      exact regroups.ordered first second bound (firstSeen.1.trans secondSeen.1.symm) less
  have start : Inference.Matches circuit rename copy (circuit.zone pin)
      ⟨circuit, circuit.pinsDirected .input, 0⟩ ⟨copy, copy.pinsDirected .input, 0⟩ :=
    ⟨fun id _ => regroups.direction_rename id, inputs⟩
  have whole := start.run regroups valid copyValid regroups.tree.tending_start.queued
    regroups.copyTree.tending_start.queued (Nat.le_add_left _ _) (Nat.le_add_left _ _)
  exact whole.directions pin rfl

end Circuit

end RelayLogic
