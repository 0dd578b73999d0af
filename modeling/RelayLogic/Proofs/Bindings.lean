import RelayLogic.Proofs.Evaluators
import RelayLogic.Proofs.Recovery

/-!
What strategies are bound to. Inference leaves no endpoint of an input without direction and gives
no relay pin one. So from an input, the pins without direction lead just where relay pins lead, and
the bindings of an element are the outputs that are drawn to its inputs.
-/

namespace RelayLogic

namespace Inference

variable {circuit : Circuit} {done : List ElementId} {inference made : Inference}

structure Tending (circuit : Circuit) (done : List ElementId) (inference : Inference) : Prop where
  queued : Queued circuit done inference
  relays : ∀ pin, circuit.isRelay pin → inference.circuit.direction pin = .undefined
  signals : ∀ pin, circuit.isPin pin → circuit.isSignalPin pin →
    inference.circuit.direction pin ≠ .undefined
  waiting : ∀ pin, inference.circuit.direction pin = .input → circuit.adjacency.touches pin →
    pin ∈ done ++ inference.queue

theorem Tending.orient (tending : Tending circuit done inference) (tree : circuit.Tree Kind.Owns)
    {reached : ElementId} (isPin : circuit.isPin reached)
    (oriented : Oriented circuit inference reached made) :
    Tending circuit done made ∧ made.circuit.direction reached ≠ .undefined := by
  have grows := oriented.grows
  have queued := tending.queued.orient tree oriented
  cases oriented with
  | closed same directed =>
      subst same
      exact ⟨tending, directed.elim (tending.signals reached isPin) id⟩
  | @opened owner isLogic member undirected alike directions queue =>
      refine ⟨⟨queued, ?_, ?_, ?_⟩, by simp [directions]⟩
      · intro pin isRelay
        have outside : pin ∉ circuit.pinsOf owner := by
          intro inside
          rw [tree.logic_notRelay isLogic inside] at isRelay
          contradiction
        rw [direction_outside member directions outside]
        exact tending.relays pin isRelay
      · intro pin pinIsPin isSignalPin
        have directed := tending.signals pin pinIsPin isSignalPin
        rwa [grows pin directed]
      · intro pin input touches
        rw [queue, ← List.append_assoc]
        rw [directions] at input
        split at input
        next => contradiction
        next different =>
          split at input
          next opened =>
            refine List.mem_append_right _ (List.mem_filter.mpr ⟨opened.1, ?_⟩)
            simp [becomesInput, different, opened.2, touches]
          next => exact List.mem_append_left _ (tending.waiting pin input touches)

theorem Tending.follow (tending : Tending circuit done inference) (tree : circuit.Tree Kind.Owns)
    (valid : circuit.validate = .ok ()) {root : ElementId} {endpoints : List ElementId}
    (joined : ∀ reached ∈ endpoints, circuit.Joined root reached) :
    let made := endpoints.foldl (Inference.orient circuit.adjacency) inference
    Tending circuit done made ∧ Grows inference made ∧
      ∀ reached ∈ endpoints, made.circuit.direction reached ≠ .undefined := by
  induction endpoints using List.reverseRecOn with
  | nil => exact ⟨tending, fun _ _ => rfl, by simp⟩
  | append_singleton endpoints last ih =>
      obtain ⟨middleTending, middleGrows, directed⟩ :=
        ih fun reached member => joined reached (List.mem_append_left _ member)
      rw [List.foldl_append]
      generalize endpoints.foldl (Inference.orient circuit.adjacency) inference = middle at *
      simp only [List.foldl_cons, List.foldl_nil]
      have lastJoined := joined last (by simp)
      have oriented := oriented tree valid middleTending.queued.alike lastJoined
      obtain ⟨made, lastDirected⟩ :=
        middleTending.orient tree (lastJoined.isPin valid) oriented
      refine ⟨made, middleGrows.trans oriented.grows, ?_⟩
      intro reached member
      rcases List.mem_append.mp member with before | isLast
      · rw [oriented.grows reached (directed reached before)]
        exact directed reached before
      · rw [List.mem_singleton.mp isLast]
        exact lastDirected

structure Tended (circuit : Circuit) (done : List ElementId) (inference : Inference) : Prop where
  tending : Tending circuit done inference
  directed : ∀ pin ∈ done, ∀ reached, circuit.Joined pin reached →
    inference.circuit.direction reached ≠ .undefined

theorem Tended.round (tended : Tended circuit done inference) (tree : circuit.Tree Kind.Owns)
    (valid : circuit.validate = .ok ()) {pin : ElementId} {queue : List ElementId}
    (waiting : inference.queue = pin :: queue) :
    Tended circuit (done ++ [pin]) (round circuit inference pin queue) := by
  have moved : done ++ [pin] ++ queue = done ++ inference.queue := by simp [waiting]
  have start : Tending circuit (done ++ [pin]) { inference with queue := queue } := by
    obtain ⟨⟨⟨alike, inputs, unique⟩, relays, signals, waits⟩, _⟩ := tended
    rw [← moved] at inputs unique waits
    exact ⟨⟨alike, inputs, unique⟩, relays, signals, waits⟩
  have joined : ∀ reached ∈ circuit.endpoints circuit.adjacency pin, circuit.Joined pin reached :=
    fun reached member => Circuit.mem_endpoints.mp member
  obtain ⟨made, grows, directed⟩ := start.follow tree valid joined
  refine ⟨made, ?_⟩
  intro followed member reached joined
  rcases List.mem_append.mp member with old | new
  · have known := tended.directed followed old reached joined
    rwa [Inference.round, grows reached known]
  · rw [List.mem_singleton.mp new] at joined
    exact directed reached (Circuit.mem_endpoints.mpr joined)

end Inference

namespace Circuit

open Inference (Tended Tending Queued)

variable {circuit : Circuit}

theorem mem_pinsDirected {pin : ElementId} {direction : Direction} :
    pin ∈ circuit.pinsDirected direction ↔ circuit.isPin pin ∧ circuit.direction pin = direction := by
  simp only [pinsDirected, ids, List.mem_filter, List.mem_range, Bool.and_eq_true, beq_iff_eq,
    and_iff_right_iff_imp]
  rintro ⟨isPin, _⟩
  obtain ⟨element, _, held, _⟩ := isPin_held isPin
  exact get?_lt held

theorem mem_inputs {pin : ElementId} :
    pin ∈ circuit.pinsDirected .input ↔ circuit.direction pin = .input := by
  rw [mem_pinsDirected, and_iff_right_iff_imp]
  intro input
  exact isPin_of_direction (by simp [input])

theorem Tree.relay_undirected (tree : circuit.Tree Kind.Owns) {pin : ElementId}
    (isRelay : circuit.isRelay pin) : circuit.direction pin = .undefined := by
  obtain ⟨owner, _, pinOf⟩ := tree.pinOf (Bool.and_eq_true _ _ ▸ isRelay).1
  cases pinOf with
  | relay _ _ undirected => exact undirected
  | signal _ _ notRelay | logic _ _ notRelay _ =>
      rw [notRelay] at isRelay
      contradiction

theorem Tree.tending_start (tree : circuit.Tree Kind.Owns) :
    Tending circuit [] ⟨circuit, circuit.pinsDirected .input, 0⟩ := by
  refine ⟨⟨rfl, ?_, ?_⟩, fun _ => tree.relay_undirected, fun _ => tree.signal_directed, ?_⟩
  · intro pin member
    exact mem_inputs.mp member
  · exact List.nodup_range.filter _
  · intro pin input _
    exact mem_inputs.mpr input

/-- Directions with which no endpoint of an input is left undirected, and relay pins are. -/
structure Directed (circuit made : Circuit) : Prop where
  alike : made.Alike circuit
  relays : ∀ pin, circuit.isRelay pin → made.direction pin = .undefined
  endpoints : ∀ pin, made.direction pin = .input → ∀ reached, circuit.Joined pin reached →
    made.direction reached ≠ .undefined

theorem Tree.directed (tree : circuit.Tree Kind.Owns) (valid : circuit.validate = .ok ()) :
    circuit.Directed (circuit.resolveDirections circuit.adjacency).1 := by
  have start : Tended circuit [] ⟨circuit, circuit.pinsDirected .input, 0⟩ :=
    ⟨tree.tending_start, by simp⟩
  have enough : circuit.size ≤ ([] : List ElementId).length + circuit.size := by simp
  obtain ⟨done, tended, emptied⟩ := Inference.run_keeps
    (fun _ _ tended => tended.tending.queued)
    (fun _ _ _ _ tended waiting => tended.round tree valid waiting) start enough
  refine ⟨tended.tending.queued.alike, tended.tending.relays, ?_⟩
  intro pin input reached joined
  refine tended.directed pin ?_ reached joined
  simpa [emptied] using tended.tending.waiting pin input joined.touches

theorem Directed.way_iff {made : Circuit} (directed : circuit.Directed made) {root pin : ElementId}
    (input : made.direction root = .input) {inverted : Bool} :
    circuit.adjacency.Way (fun pin => made.direction pin == .undefined) root pin inverted ↔
      circuit.adjacency.Way circuit.isRelay root pin inverted := by
  constructor
  · intro way
    induction way with
    | first link => exact .first link
    | @onward here inverted _ _ through link ih =>
        rw [beq_iff_eq] at through
        have different : here ≠ root := by
          rintro rfl
          rw [input] at through
          contradiction
        have isRelay : circuit.isRelay here := by
          by_contra notRelay
          exact directed.endpoints root input here
            ⟨different, by simpa using notRelay, inverted, ih⟩ through
        exact ih.onward isRelay link
  · intro way
    induction way with
    | first link => exact .first link
    | onward _ through link ih => exact ih.onward (beq_iff_eq.mpr (directed.relays _ through)) link

theorem lookup_connected {connections : ElementId → List Connection} (pins : List ElementId)
    (pin : ElementId) :
    (((pins.map fun pin => (pin, connections pin)).filter
      fun entry => !entry.2.isEmpty).lookup pin).getD [] =
        if pin ∈ pins then connections pin else [] := by
  induction pins with
  | nil => simp
  | cons first pins ih =>
      rw [List.map_cons, List.filter_cons]
      by_cases same : pin = first
      · subst same
        split
        next => simp
        next empty => simp_all
      · have otherwise : (pin == first) = false := by simpa using same
        split
        next => simpa [List.lookup_cons, otherwise, same] using ih
        next => simpa [same] using ih

theorem lookup_inputConnections {adjacency : Adjacency} {pin : ElementId}
    (input : circuit.direction pin = .input) :
    ((circuit.inputConnections adjacency).lookup pin).getD [] =
      circuit.connections adjacency pin := by
  rw [inputConnections, lookup_connected, if_pos (mem_inputs.mpr input)]

theorem binding?_eq_some {slots : List ElementId} {connection : Connection} {binding : Binding} :
    circuit.binding? slots connection = some binding ↔
      circuit.direction connection.pin = .output ∧
        (circuit.evaluatorOf connection.pin).bind (slots.idxOf? ·) = some binding.source ∧
        binding.inverted = connection.inverted := by
  obtain ⟨source, inverted⟩ := binding
  unfold binding?
  split
  next output =>
    simp only [Option.map_eq_some_iff, Binding.mk.injEq, output, true_and]
    exact ⟨fun ⟨_, found, same, inverts⟩ => ⟨same ▸ found, inverts.symm⟩,
      fun ⟨found, inverts⟩ => ⟨source, found, rfl, inverts.symm⟩⟩
  next other => simp [other]

theorem slot_planOf (circuit : Circuit) (clock : Clock) (element : ElementId) :
    (circuit.planOf clock).slot element =
      ((circuit.strategies clock).map (·.element)).idxOf? element := by
  rw [Plan.slot, planOf, List.findIdx?_toArray, List.idxOf?, List.findIdx?_map, List.findIdx?_map]
  congr 1
  funext strategy
  simp only [Function.comp_apply, bindStrategy]
  split <;> rfl

theorem Alike.adjacency {made : Circuit} (alike : made.Alike circuit) :
    made.adjacency = circuit.adjacency := by
  have same : ∀ circuit : Circuit, circuit.undirected.wires = circuit.wires := by
    intro circuit
    simp only [wires, collect, ids, size_undirected, get?_undirected]
    congr 1
    funext id
    cases circuit.get? id with
    | none => rfl
    | some element =>
        obtain ⟨name, kind, owner, children, evaluator, block⟩ := element
        cases kind <;> rfl
  rw [Circuit.adjacency, ← same, alike, same, Circuit.adjacency]

def simulated (circuit : Circuit) (pin : ElementId) : Option ElementId :=
  (circuit.mappedTag pin).or (circuit.owner pin)

theorem evaluatorOf_evaluatedBy {made : Circuit} (alike : made.Alike circuit) :
    (made.evaluatedBy circuit.mappedTag).evaluatorOf = circuit.simulated := by
  funext pin
  simp only [evaluatorOf, get?_evaluatedBy, simulated, mappedTag, ← alike.owner]
  simp only [owner]
  cases made.get? pin <;> rfl

/-- An input of an element with an output that has a cell and is joined to it by relay pins. -/
structure DrawnTo (circuit prepared : Circuit) (plan : Plan) (element input output : ElementId) :
    Prop where
  evaluated : circuit.simulated input = some element
  isInput : prepared.direction input = .input
  isOutput : prepared.direction output = .output
  different : output ≠ input
  joined : ∃ inverted, circuit.adjacency.Way circuit.isRelay input output inverted
  computed : ∃ source, (circuit.simulated output).bind plan.slot = some source

end Circuit

end RelayLogic
