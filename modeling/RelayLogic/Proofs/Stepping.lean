import RelayLogic.Proofs.Settling
import Mathlib.Logic.Relation

/-!
Inference step by step, one direction at a time. It comes to its end whatever circuit it starts
from: it follows no pin twice and directs no pin twice, and it counts the pins that it directs.
-/

namespace RelayLogic

namespace Circuit

variable {circuit : Circuit}

theorem length_undirected_setDirection {id : ElementId} {direction : Direction}
    (isPin : circuit.isPin id) (undirected : circuit.direction id = .undefined)
    (directed : direction ≠ .undefined) :
    ((circuit.setDirection id direction).pinsDirected .undefined).length + 1 =
      (circuit.pinsDirected .undefined).length := by
  have alike : (circuit.setDirection id direction).Alike circuit :=
    undirected_setDirection circuit id direction
  have isMember : id ∈ circuit.pinsDirected .undefined := by
    obtain ⟨element, _, held, _⟩ := isPin_held isPin
    simp [pinsDirected, ids, get?_lt held, isPin, undirected]
  have unique : (circuit.pinsDirected .undefined).Nodup := List.nodup_range.filter _
  have others : (circuit.setDirection id direction).pinsDirected .undefined =
      (circuit.pinsDirected .undefined).erase id := by
    rw [unique.erase_eq_filter, pinsDirected, pinsDirected, List.filter_filter, ids, ids,
      alike.size, alike.isPin]
    refine List.filter_congr fun pin _ => ?_
    rw [direction_setDirection]
    by_cases same : pin = id
    · simp [same, isPin, directed]
    · simp [same]
  have some := List.length_pos_of_mem isMember
  rw [others, List.length_erase_of_mem isMember]
  omega

end Circuit

namespace Inference

variable {circuit : Circuit} {adjacency : Adjacency} {inference before after : Inference}

def remaining (inference : Inference) : Nat :=
  (inference.circuit.pinsDirected .undefined).length

/-- What is left to do: each undirected pin may still be queued, and each queued one is followed. -/
def work (inference : Inference) : Nat :=
  inference.remaining + inference.queue.length

structure Directs (adjacency : Adjacency) (before after : Inference) : Prop where
  advances : Advances adjacency before after
  counted : after.changed + after.remaining = before.changed + before.remaining
  work : after.work ≤ before.work

theorem Directs.refl (adjacency : Adjacency) (inference : Inference) :
    Directs adjacency inference inference :=
  ⟨Advances.refl adjacency inference, rfl, le_rfl⟩

theorem set_counted {id : ElementId} (direction : Direction)
    (undirected : inference.circuit.direction id = .undefined) (directed : direction ≠ .undefined) :
    (inference.set id direction).changed + (inference.set id direction).remaining =
      inference.changed + inference.remaining := by
  by_cases isPin : inference.circuit.isPin id
  · have less := Circuit.length_undirected_setDirection isPin undirected directed
    simp only [set, remaining, isPin, ↓reduceIte]
    omega
  · rw [Bool.not_eq_true] at isPin
    simp [set, remaining, isPin, setDirection_noPin isPin]

theorem directs_output (adjacency : Adjacency) {reached : ElementId}
    (opened : isOpen inference.circuit reached) :
    Directs adjacency inference (inference.set reached .output) := by
  have undirected : inference.circuit.direction reached = .undefined := by
    simp only [isOpen, Bool.and_eq_true, beq_iff_eq] at opened
    exact opened.1
  have counted := set_counted .output undirected (by decide)
  have queue : (inference.set reached .output).queue = inference.queue := rfl
  have more : inference.changed ≤ (inference.set reached .output).changed := by
    simp only [set]
    split <;> omega
  refine ⟨advances_output undirected, counted, ?_⟩
  rw [work, work, queue]
  omega

theorem directs_addInput (adjacency : Adjacency) (output : ElementId) {sibling : ElementId}
    (isPin : inference.circuit.isPin sibling) :
    Directs adjacency inference (addInput adjacency output inference sibling) := by
  have advances := advances_addInput adjacency output isPin
  by_cases closed : sibling = output ∨ inference.circuit.direction sibling ≠ .undefined
  · have same : addInput adjacency output inference sibling = inference := by
      rw [addInput, if_pos (by simpa using closed)]
    rw [same]
    exact Directs.refl adjacency inference
  · obtain ⟨_, undirected⟩ := not_or.mp closed
    rw [not_not] at undirected
    have counted := set_counted .input undirected (by decide)
    have one : (inference.set sibling .input).changed = inference.changed + 1 := by
      simp only [set, isPin, ↓reduceIte]
    have made : addInput adjacency output inference sibling =
        { inference.set sibling .input with
          queue := inference.queue ++ if adjacency.touches sibling then [sibling] else [] } := by
      rw [addInput, if_neg (by simpa using closed)]
      split <;> simp [set]
    rw [made] at advances ⊢
    refine ⟨advances, counted, ?_⟩
    have least : (inference.set sibling .input).remaining + 1 = inference.remaining := by omega
    show (inference.set sibling .input).remaining + _ ≤ inference.remaining + _
    rw [List.length_append]
    split <;> simp only [List.length_singleton, List.length_nil] <;> omega

structure Stage where
  inference : Inference
  endpoints : List ElementId
  /-- The endpoint that was reached last; the solution, which is none, before the first. -/
  output : ElementId
  /-- The pins that may still become inputs beside it. -/
  siblings : List ElementId
  deriving DecidableEq, Repr

namespace Stage

variable {here there last : Stage} {passed : List Stage}

def start (circuit : Circuit) : Stage :=
  ⟨⟨circuit, circuit.pinsDirected .input, 0⟩, [], Circuit.solution, []⟩

def takes? : Stage → Option ElementId
  | ⟨inference, [], _, []⟩ => inference.queue.head?
  | _ => none

/-- One step: a sibling is looked at, or else an endpoint, or else the next pin is followed. -/
def next (adjacency : Adjacency) : Stage → Option Stage
  | ⟨inference, endpoints, output, sibling :: siblings⟩ =>
    some ⟨addInput adjacency output inference sibling, endpoints, output, siblings⟩
  | ⟨inference, reached :: endpoints, _, []⟩ =>
    if isOpen inference.circuit reached then
      some ⟨inference.set reached .output, endpoints, reached,
        ((inference.circuit.owner reached).map inference.circuit.pinsOf).getD []⟩
    else some ⟨inference, endpoints, reached, []⟩
  | ⟨inference, [], output, []⟩ =>
    match inference.queue with
    | [] => none
    | pin :: queue =>
      some ⟨{ inference with queue := queue }, inference.circuit.endpoints adjacency pin,
        output, []⟩

def Proper (stage : Stage) : Prop :=
  ∀ sibling ∈ stage.siblings, stage.inference.circuit.isPin sibling

inductive Stepped (adjacency : Adjacency) (here there : Stage) : Prop
  | follows {pin : ElementId} {queue : List ElementId} (takes : here.takes? = some pin)
    (waiting : here.inference.queue = pin :: queue)
    (rest : there.inference = { here.inference with queue := queue })
  | directs (takes : here.takes? = none)
    (directs : Directs adjacency here.inference there.inference)

theorem stepped (proper : here.Proper) (step : here.next adjacency = some there) :
    Stepped adjacency here there ∧ there.Proper := by
  obtain ⟨inference, endpoints, output, siblings⟩ := here
  -- The cases are those of `next`: a sibling, an endpoint, a queued pin.
  cases siblings with
  | cons sibling siblings =>
      cases step
      have directs := directs_addInput adjacency output (proper sibling List.mem_cons_self)
      refine ⟨.directs (by cases endpoints <;> rfl) directs, fun pin member => ?_⟩
      show (addInput adjacency output inference sibling).circuit.isPin pin
      rw [directs.advances.alike.isPin]
      exact proper pin (List.mem_cons_of_mem _ member)
  | nil =>
      cases endpoints with
      | cons reached endpoints =>
          by_cases opened : isOpen inference.circuit reached
          · simp only [next, opened, ↓reduceIte, Option.some.injEq] at step
            subst step
            have directs := directs_output adjacency opened
            refine ⟨.directs rfl directs, fun pin member => ?_⟩
            rw [directs.advances.alike.isPin]
            cases owned : inference.circuit.owner reached with
            | none => simp [owned] at member
            | some owner =>
                simp only [owned, Option.map_some, Option.getD_some] at member
                exact (List.mem_filter.mp member).2
          · simp only [next, opened, Bool.false_eq_true, ↓reduceIte, Option.some.injEq] at step
            subst step
            exact ⟨.directs rfl (Directs.refl adjacency inference), proper⟩
      | nil =>
          cases waiting : inference.queue with
          | nil => simp [next, waiting] at step
          | cons pin queue =>
              simp only [next, waiting, Option.some.injEq] at step
              subst step
              exact ⟨.follows (by simp [takes?, waiting]) waiting rfl, proper⟩

def Leads (adjacency : Adjacency) : Stage → Stage → Prop :=
  Relation.ReflTransGen fun here there => here.next adjacency = some there

theorem Leads.head (step : here.next adjacency = some there) (leads : Leads adjacency there last) :
    Leads adjacency here last :=
  Relation.ReflTransGen.head step leads

structure Onward (here there : Stage) : Prop where
  alike : there.inference.circuit.Alike here.inference.circuit
  grows : Grows here.inference there.inference
  counted : there.inference.changed + there.inference.remaining =
    here.inference.changed + here.inference.remaining
  work : there.inference.work ≤ here.inference.work

theorem Onward.trans {first second third : Stage} (before : Onward first second)
    (after : Onward second third) : Onward first third :=
  ⟨after.alike.trans before.alike, before.grows.trans after.grows,
    after.counted.trans before.counted, after.work.trans before.work⟩

theorem Stepped.onward (stepped : Stepped adjacency here there) : Onward here there := by
  cases stepped with
  | follows _ waiting rest =>
      refine ⟨by rw [rest]; rfl, fun _ _ => by rw [rest], by rw [rest]; rfl, ?_⟩
      rw [rest, work, work, waiting, List.length_cons]
      exact Nat.add_le_add_left (Nat.le_succ _) _
  | directs _ directs =>
      exact ⟨directs.advances.alike, directs.advances.grows, directs.counted, directs.work⟩

theorem Leads.onward (leads : Leads adjacency here there) (proper : here.Proper) :
    Onward here there := by
  have both : Onward here there ∧ there.Proper := by
    induction leads with
    | refl => exact ⟨⟨rfl, fun _ _ => rfl, rfl, le_rfl⟩, proper⟩
    | tail _ step ih =>
        obtain ⟨onward, proper⟩ := ih
        obtain ⟨stepped, proper⟩ := stepped proper step
        exact ⟨onward.trans stepped.onward, proper⟩
  exact both.1

theorem Onward.changed_eq (onward : Onward here there) (zero : here.inference.changed = 0) :
    there.inference.changed = (here.inference.circuit.ids.filter fun pin =>
      there.inference.circuit.direction pin != here.inference.circuit.direction pin).length := by
  obtain ⟨alike, grows, counted, _⟩ := onward
  generalize here.inference = first at *
  generalize there.inference = last at *
  have parts := List.length_eq_length_filter_add (l := first.circuit.pinsDirected .undefined)
    fun pin => last.circuit.direction pin == .undefined
  have still : (first.circuit.pinsDirected .undefined).filter
      (fun pin => last.circuit.direction pin == .undefined) =
      last.circuit.pinsDirected .undefined := by
    rw [Circuit.pinsDirected, Circuit.pinsDirected, List.filter_filter, Circuit.ids, Circuit.ids,
      alike.size, alike.isPin]
    refine List.filter_congr fun pin _ => ?_
    by_cases undirected : first.circuit.direction pin = .undefined
    · simp [undirected, Bool.and_comm]
    · simp [grows pin undirected, undirected]
  have changed : (first.circuit.pinsDirected .undefined).filter
      (fun pin => !(last.circuit.direction pin == .undefined)) =
      first.circuit.ids.filter fun pin =>
        last.circuit.direction pin != first.circuit.direction pin := by
    rw [Circuit.pinsDirected, List.filter_filter]
    refine List.filter_congr fun pin _ => ?_
    by_cases undirected : first.circuit.direction pin = .undefined
    · by_cases directed : last.circuit.direction pin = .undefined
      · simp [undirected, directed]
      · have isPin := Circuit.isPin_of_direction directed
        rw [alike.isPin] at isPin
        simp [undirected, isPin, bne]
    · simp [grows pin undirected, undirected]
  rw [still, changed] at parts
  rw [remaining, remaining, zero] at counted
  omega

inductive Passes (adjacency : Adjacency) : Stage → List Stage → Stage → Prop
  | ends {last : Stage} (ended : last.next adjacency = none) : Passes adjacency last [last] last
  | next {here there last : Stage} {passed : List Stage} (step : here.next adjacency = some there)
    (rest : Passes adjacency there passed last) : Passes adjacency here (here :: passed) last

theorem Leads.passes (leads : Leads adjacency here last) (ended : last.next adjacency = none) :
    ∃ passed, Passes adjacency here passed last := by
  induction leads using Relation.ReflTransGen.head_induction_on with
  | refl => exact ⟨[last], .ends ended⟩
  | head step _ ih =>
      obtain ⟨passed, passes⟩ := ih
      exact ⟨_, .next step passes⟩

theorem Passes.leads (passes : Passes adjacency here passed last) :
    ∀ later ∈ passed, Leads adjacency here later := by
  induction passes with
  | ends => exact fun later member => List.mem_singleton.mp member ▸ .refl
  | next step _ ih =>
      intro later member
      rcases List.mem_cons.mp member with rfl | member
      · exact .refl
      · exact .head step (ih later member)

theorem Passes.grows (passes : Passes adjacency here passed last) (proper : here.Proper) :
    passed.Pairwise fun earlier later => Grows earlier.inference later.inference := by
  induction passes with
  | ends => exact List.pairwise_singleton _ _
  | next step rest ih =>
      obtain ⟨_, properNext⟩ := stepped proper step
      refine List.pairwise_cons.mpr ⟨fun later member => ?_, ih properNext⟩
      exact (Leads.onward (.head step (rest.leads later member)) proper).grows

theorem takes?_of_ended (ended : last.next adjacency = none) : last.takes? = none := by
  obtain ⟨inference, endpoints, output, siblings⟩ := last
  cases siblings with
  | cons => cases ended
  | nil =>
      cases endpoints with
      | cons => rfl
      | nil =>
          cases waiting : inference.queue with
          | nil => simp [takes?, waiting]
          | cons => simp [next, waiting] at ended

theorem Passes.unique {done : List ElementId} (passes : Passes adjacency here passed last)
    (queued : Queued circuit done here.inference) (proper : here.Proper) :
    (done ++ passed.filterMap takes?).Nodup := by
  induction passes generalizing done with
  | ends ended =>
      rw [List.filterMap_cons, takes?_of_ended ended, List.filterMap_nil, List.append_nil]
      exact (List.nodup_append.mp queued.unique).1
  | next step _ ih =>
      obtain ⟨stepped, properNext⟩ := stepped proper step
      cases stepped with
      | follows takes waiting rest =>
          have unique := ih (rest ▸ queued.take waiting) properNext
          rwa [List.filterMap_cons, takes, List.append_cons]
      | directs takes directs =>
          have unique := ih (queued.advance directs.advances) properNext
          rwa [List.filterMap_cons, takes]

theorem leads_siblings (adjacency : Adjacency) (inference : Inference)
    (endpoints : List ElementId) (output : ElementId) (siblings : List ElementId) :
    Leads adjacency ⟨inference, endpoints, output, siblings⟩
      ⟨siblings.foldl (addInput adjacency output) inference, endpoints, output, []⟩ := by
  induction siblings generalizing inference with
  | nil => exact .refl
  | cons sibling siblings ih => exact .head rfl (ih _)

theorem leads_endpoint (adjacency : Adjacency) (inference : Inference) (reached : ElementId)
    (endpoints : List ElementId) (output : ElementId) :
    Leads adjacency ⟨inference, reached :: endpoints, output, []⟩
      ⟨orient adjacency inference reached, endpoints, reached, []⟩ := by
  by_cases opened : isOpen inference.circuit reached
  · have alike : (inference.set reached .output).circuit.Alike inference.circuit :=
      Circuit.undirected_setDirection _ _ _
    have step : next adjacency ⟨inference, reached :: endpoints, output, []⟩ =
        some ⟨inference.set reached .output, endpoints, reached,
          ((inference.circuit.owner reached).map inference.circuit.pinsOf).getD []⟩ := by
      simp only [next, opened, ↓reduceIte]
    have made : orient adjacency inference reached =
        (((inference.circuit.owner reached).map inference.circuit.pinsOf).getD []).foldl
          (addInput adjacency reached) (inference.set reached .output) := by
      simp only [orient, opened, ↓reduceIte, alike.owner, alike.pinsOf]
      cases inference.circuit.owner reached <;> rfl
    rw [made]
    exact .head step (leads_siblings adjacency _ endpoints reached _)
  · have step : next adjacency ⟨inference, reached :: endpoints, output, []⟩ =
        some ⟨inference, endpoints, reached, []⟩ := by
      simp only [next, opened, Bool.false_eq_true, ↓reduceIte]
    rw [orient_closed opened]
    exact .single step

theorem leads_endpoints (adjacency : Adjacency) (inference : Inference)
    (endpoints : List ElementId) (output : ElementId) : ∃ reached,
    Leads adjacency ⟨inference, endpoints, output, []⟩
      ⟨endpoints.foldl (orient adjacency) inference, [], reached, []⟩ := by
  induction endpoints generalizing inference output with
  | nil => exact ⟨output, .refl⟩
  | cons first endpoints ih =>
      obtain ⟨reached, rest⟩ := ih (orient adjacency inference first) first
      exact ⟨reached, (leads_endpoint adjacency inference first endpoints output).trans rest⟩

theorem leads_run (adjacency : Adjacency) {fuel : Nat} (enough : inference.work ≤ fuel)
    (output : ElementId) : ∃ reached,
    Leads adjacency ⟨inference, [], output, []⟩ ⟨run adjacency fuel inference, [], reached, []⟩ ∧
      (run adjacency fuel inference).queue = [] := by
  induction fuel generalizing inference output with
  | zero =>
      have empty : inference.queue = [] :=
        List.length_eq_zero_iff.mp (Nat.eq_zero_of_add_eq_zero (Nat.le_zero.mp enough)).2
      exact ⟨output, .refl, empty⟩
  | succ fuel ih =>
      cases waiting : inference.queue with
      | nil =>
          rw [run_of_empty waiting]
          exact ⟨output, .refl, waiting⟩
      | cons pin queue =>
          have step : next adjacency ⟨inference, [], output, []⟩ =
              some ⟨{ inference with queue := queue },
                inference.circuit.endpoints adjacency pin, output, []⟩ := by
            simp only [next, waiting]
          obtain ⟨reached, round⟩ := leads_endpoints adjacency { inference with queue := queue }
            (inference.circuit.endpoints adjacency pin) output
          -- A round turns undirected pins into queued ones at most, so the pin that it takes off
          -- the queue is work that is done.
          have onward := (round.onward fun _ member => nomatch member).work
          have taken :
              ({ inference with queue := queue } : Inference).work + 1 = inference.work := by
            rw [work, work, waiting, List.length_cons]
            rfl
          have followed : run adjacency (fuel + 1) inference = run adjacency fuel
              ((inference.circuit.endpoints adjacency pin).foldl (orient adjacency)
                { inference with queue := queue }) := by
            simp only [run, waiting]
          have less : ((inference.circuit.endpoints adjacency pin).foldl (orient adjacency)
              { inference with queue := queue }).work ≤ fuel := by
            dsimp only at onward
            omega
          obtain ⟨last, rest, ended⟩ := ih less reached
          rw [followed]
          exact ⟨last, .head step (round.trans rest), ended⟩

end Stage

end Inference

namespace Circuit

open Inference

theorem work_start (circuit : Circuit) (changed : Nat) :
    work ⟨circuit, circuit.pinsDirected .input, changed⟩ ≤ circuit.size := by
  have parts := List.length_eq_length_filter_add (l := circuit.ids)
    fun id => circuit.isPin id && circuit.direction id == .undefined
  have inputs : (circuit.pinsDirected .input).length ≤ (circuit.ids.filter fun id =>
      !(circuit.isPin id && circuit.direction id == .undefined)).length := by
    refine (List.monotone_filter_right _ fun id directed => ?_).length_le
    simp only [Bool.and_eq_true, beq_iff_eq] at directed
    simp [directed.2]
  have size : circuit.ids.length = circuit.size := List.length_range
  rw [work, remaining, pinsDirected]
  dsimp only
  omega

/--
Inference takes its steps to an end, and what it has inferred there is the result; the walks on the
way end by themselves as well. It takes no pin off the queue twice and leaves every direction that
is given as it is, and the number that it tells is that of the pins whose direction has changed.
-/
theorem resolveDirections_passes (circuit : Circuit) (adjacency : Adjacency) : ∃ passed last,
    Stage.Passes adjacency (.start circuit) passed last ∧
    circuit.resolveDirections adjacency = (last.inference.circuit, last.inference.changed) ∧
    (∀ root more, adjacency.walkFrom circuit.isRelay root (adjacency.links.length + 1 + more)
      [⟨root, false⟩] [] = adjacency.walk circuit.isRelay root) ∧
    (passed.filterMap Stage.takes?).Nodup ∧
    (passed.Pairwise fun earlier later => Grows earlier.inference later.inference) ∧
    last.inference.changed = (circuit.ids.filter fun pin =>
      last.inference.circuit.direction pin != circuit.direction pin).length := by
  obtain ⟨reached, leads, ended⟩ :=
    Stage.leads_run adjacency (circuit.work_start 0) Circuit.solution
  have proper : (Stage.start circuit).Proper := fun _ member => nomatch member
  have onward := leads.onward proper
  obtain ⟨passed, passes⟩ := leads.passes (by simp only [Stage.next, ended])
  have unique := passes.unique (settling_start circuit).queued proper
  exact ⟨passed, _, passes, rfl, adjacency.walk_more circuit.isRelay, unique,
    passes.grows proper, onward.changed_eq rfl⟩

end Circuit

end RelayLogic
