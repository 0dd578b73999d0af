import RelayLogic.Proofs.Bindings
import RelayLogic.Proofs.Saving

/-!
What inference leaves behind. An element has directions only if its value is asked for: its output
is joined to an input, that input's element has an output in turn, and so on until the input of a
signal is met.
-/

namespace RelayLogic

namespace Circuit

/-- An input from which the values lead on to a signal, where `fed` tells for each output which
input it feeds. -/
inductive Ends (circuit : Circuit) (made : ElementId → Direction) (fed : ElementId → ElementId) :
    ElementId → Prop
  | signal {input : ElementId} (isSignalPin : circuit.isSignalPin input)
      (fixed : circuit.direction input = .input) : Ends circuit made fed input
  | onward {id input output : ElementId} (isLogic : circuit.IsLogic id)
      (member : input ∈ circuit.pinsOf id) (other : output ∈ circuit.pinsOf id)
      (isOutput : made output = .output) (rest : Ends circuit made fed (fed output)) :
      Ends circuit made fed input

/-- A pin that a signal consumes the value of, directly or through the other pins of elements, as
far as wires and relay pins tell. -/
inductive Consumed (circuit : Circuit) : ElementId → Prop
  | signal {input pin : ElementId} (isSignalPin : circuit.isSignalPin input)
      (fixed : circuit.direction input = .input) (joined : circuit.Joined input pin) :
      Consumed circuit pin
  | through {id output input pin : ElementId} (isLogic : circuit.IsLogic id)
      (consumed : Consumed circuit output) (member : output ∈ circuit.pinsOf id)
      (other : input ∈ circuit.pinsOf id) (different : input ≠ output)
      (joined : circuit.Joined input pin) : Consumed circuit pin

/-- Directions as inference leaves them. -/
structure Allotted (circuit : Circuit) (made : ElementId → Direction) : Prop where
  signals : ∀ pin, circuit.isPin pin → circuit.isSignalPin pin → ∃ direction,
    circuit.pin pin = .ok (.fixed direction) ∧ direction ≠ .undefined ∧
      made pin = direction
  relays : ∀ pin, circuit.isRelay pin → made pin = .undefined
  logic : ∀ id, circuit.IsLogic id →
    (circuit.pinsOf id).map made = List.replicate 4 .undefined ∨
      ((circuit.pinsOf id).map made).Perm [.output, .input, .input, .input]
  endpoints : ∀ pin, made pin = .input → ∀ reached, circuit.Joined pin reached →
    made reached ≠ .undefined
  feeds : ∃ fed : ElementId → ElementId, ∀ id output, circuit.IsLogic id →
    output ∈ circuit.pinsOf id → made output = .output →
      circuit.Joined (fed output) output ∧ made (fed output) = .input ∧
        circuit.Ends made fed (fed output)
  idle : ∀ id, circuit.IsLogic id → (∀ pin ∈ circuit.pinsOf id, ¬circuit.Consumed pin) →
    ∀ pin ∈ circuit.pinsOf id, made pin = .undefined

theorem Ends.grow {circuit : Circuit} {before after : ElementId → Direction}
    {fed : ElementId → ElementId} {input output root : ElementId} (ends : circuit.Ends before fed input)
    (grows : ∀ pin, before pin ≠ .undefined → after pin = before pin)
    (undirected : before output = .undefined) :
    circuit.Ends after (Function.update fed output root) input := by
  induction ends with
  | signal isSignalPin fixed => exact .signal isSignalPin fixed
  | @onward id input other isLogic member otherMember isOutput _ ih =>
      have different : other ≠ output := by
        rintro rfl
        rw [isOutput] at undirected
        contradiction
      refine .onward isLogic member otherMember ?_ ?_
      · rw [grows other (by simp [isOutput]), isOutput]
      · rwa [Function.update_of_ne different]

end Circuit

namespace Inference

variable {circuit : Circuit} {fed : ElementId → ElementId} {inference made : Inference}

/-- Whether the pins of an element have no directions yet, or all of them with one output. -/
def Shaped (circuit : Circuit) (made : ElementId → Direction) (id : ElementId) : Prop :=
  (∀ pin ∈ circuit.pinsOf id, made pin = .undefined) ∨
    ∃ output ∈ circuit.pinsOf id, ∀ pin ∈ circuit.pinsOf id,
      made pin = if pin = output then .output else .input

namespace Shaped

variable {before after : ElementId → Direction} {id : ElementId}

theorem undirected (shaped : Shaped circuit before id) {reached : ElementId}
    (member : reached ∈ circuit.pinsOf id) (undirected : before reached = .undefined) :
    ∀ pin ∈ circuit.pinsOf id, before pin = .undefined := by
  rcases shaped with none | ⟨output, _, all⟩
  · exact none
  · rw [all reached member] at undirected
    split at undirected <;> contradiction

theorem congr (shaped : Shaped circuit before id)
    (same : ∀ pin ∈ circuit.pinsOf id, after pin = before pin) : Shaped circuit after id := by
  rcases shaped with none | ⟨output, member, all⟩
  · exact Or.inl fun pin owned => (same pin owned).trans (none pin owned)
  · exact Or.inr ⟨output, member, fun pin owned => (same pin owned).trans (all pin owned)⟩

end Shaped

structure Feeding (circuit : Circuit) (fed : ElementId → ElementId) (inference : Inference) :
    Prop where
  alike : inference.circuit.Alike circuit
  kept : ∀ pin, circuit.direction pin ≠ .undefined →
    inference.circuit.direction pin = circuit.direction pin
  shaped : ∀ id, circuit.IsLogic id → Shaped circuit inference.circuit.direction id
  feeds : ∀ id output, circuit.IsLogic id → output ∈ circuit.pinsOf id →
    inference.circuit.direction output = .output →
      circuit.Joined (fed output) output ∧ inference.circuit.direction (fed output) = .input
  ends : ∀ input, inference.circuit.direction input = .input →
    circuit.Ends inference.circuit.direction fed input

theorem feeding_start (tree : circuit.Tree Kind.Owns) (queue : List ElementId) :
    Feeding circuit id ⟨circuit, queue, 0⟩ where
  alike := rfl
  kept _ _ := rfl
  shaped _ isLogic := Or.inl fun _ member => (tree.logic_pin isLogic member).2
  feeds _ output isLogic member isOutput := by
    rw [(tree.logic_pin isLogic member).2] at isOutput
    contradiction
  ends input isInput := by
    have isPin : circuit.isPin input := Circuit.isPin_of_direction (by simp [isInput])
    obtain ⟨owner, _, pinOf⟩ := tree.pinOf isPin
    cases pinOf with
    | signal _ isSignalPin _ => exact .signal isSignalPin isInput
    | relay _ _ undirected | logic _ _ _ undirected =>
        rw [undirected] at isInput
        contradiction

theorem Feeding.orient (feeding : Feeding circuit fed inference) (tree : circuit.Tree Kind.Owns)
    {root reached : ElementId} (isInput : inference.circuit.direction root = .input)
    (joined : circuit.Joined root reached) (oriented : Oriented circuit inference reached made) :
    ∃ fed, Feeding circuit fed made := by
  have grows := oriented.grows
  cases oriented with
  | closed same _ => exact ⟨fed, same ▸ feeding⟩
  | @opened owner isLogic member undirected alike directions _ =>
      have fresh := (feeding.shaped owner isLogic).undirected member undirected
      have inside : ∀ pin ∈ circuit.pinsOf owner,
          made.circuit.direction pin = if pin = reached then .output else .input := by
        intro pin owned
        simp only [directions, owned, fresh pin owned, and_self, ↓reduceIte]
      have outside : ∀ pin, pin ∉ circuit.pinsOf owner →
          made.circuit.direction pin = inference.circuit.direction pin :=
        fun _ foreign => direction_outside member directions foreign
      have rootInput : made.circuit.direction root = .input := by
        rw [grows root (by simp [isInput]), isInput]
      have onward : ∀ input, inference.circuit.direction input = .input →
          circuit.Ends made.circuit.direction (Function.update fed reached root) input :=
        fun input wasInput => (feeding.ends input wasInput).grow grows undirected
      refine ⟨Function.update fed reached root, alike, ?_, ?_, ?_, ?_⟩
      · intro pin directed
        have same := feeding.kept pin directed
        rw [grows pin (by rwa [same]), same]
      · intro id idLogic
        by_cases same : id = owner
        · subst same
          exact Or.inr ⟨reached, member, inside⟩
        · exact (feeding.shaped id idLogic).congr fun pin owned =>
            outside pin fun both => same (tree.pinsOf_unique owned both)
      · intro id output idLogic owned isOutput
        by_cases same : output = reached
        · subst same
          rw [Function.update_self]
          exact ⟨joined, rootInput⟩
        · have foreign : output ∉ circuit.pinsOf owner := by
            intro both
            rw [inside output both, if_neg same] at isOutput
            contradiction
          rw [outside output foreign] at isOutput
          obtain ⟨fedJoined, fedInput⟩ := feeding.feeds id output idLogic owned isOutput
          rw [Function.update_of_ne same, grows _ (by simp [fedInput])]
          exact ⟨fedJoined, fedInput⟩
      · intro input nowInput
        by_cases owned : input ∈ circuit.pinsOf owner
        · refine .onward isLogic owned member (by simp [inside reached member]) ?_
          rw [Function.update_self]
          exact onward root isInput
        · rw [outside input owned] at nowInput
          exact onward input nowInput

theorem Feeding.follow (tree : circuit.Tree Kind.Owns) (valid : circuit.validate = .ok ())
    {root : ElementId} {endpoints : List ElementId} (feeding : Feeding circuit fed inference)
    (isInput : inference.circuit.direction root = .input)
    (joined : ∀ reached ∈ endpoints, circuit.Joined root reached) :
    ∃ fed, Feeding circuit fed (endpoints.foldl (Inference.orient circuit.adjacency) inference) := by
  induction endpoints generalizing fed inference with
  | nil => exact ⟨fed, feeding⟩
  | cons reached endpoints ih =>
      have first := joined reached (List.mem_cons_self ..)
      have oriented := oriented tree valid feeding.alike first
      obtain ⟨fed, next⟩ := feeding.orient tree isInput first oriented
      refine ih next ?_ fun other member => joined other (List.mem_cons_of_mem _ member)
      rw [oriented.grows root (by simp [isInput]), isInput]

structure Supplied (circuit : Circuit) (done : List ElementId) (inference : Inference) : Prop where
  tended : Tended circuit done inference
  feeding : ∃ fed, Feeding circuit fed inference

theorem Supplied.round (tree : circuit.Tree Kind.Owns) (valid : circuit.validate = .ok ())
    {done : List ElementId} {pin : ElementId} {queue : List ElementId}
    (supplied : Supplied circuit done inference) (waiting : inference.queue = pin :: queue) :
    Supplied circuit (done ++ [pin]) (round circuit inference pin queue) := by
  obtain ⟨tended, fed, feeding⟩ := supplied
  have isInput : inference.circuit.direction pin = .input :=
    tended.tending.queued.inputs pin (by simp [waiting])
  have start : Feeding circuit fed { inference with queue := queue } :=
    ⟨feeding.alike, feeding.kept, feeding.shaped, feeding.feeds, feeding.ends⟩
  exact ⟨tended.round tree valid waiting,
    start.follow tree valid isInput fun reached member => Circuit.mem_endpoints.mp member⟩

end Inference

namespace Circuit

open Inference (Feeding Supplied)

variable {circuit : Circuit} {made : ElementId → Direction} {fed : ElementId → ElementId}

theorem Tree.feeding (tree : circuit.Tree Kind.Owns) (valid : circuit.validate = .ok ()) :
    ∃ fed inference, inference.circuit = (circuit.resolveDirections circuit.adjacency).1 ∧
      Feeding circuit fed inference := by
  have start : Supplied circuit [] ⟨circuit, circuit.pinsDirected .input, 0⟩ :=
    ⟨⟨tree.tending_start, by simp⟩, _, Inference.feeding_start tree _⟩
  have enough : circuit.size ≤ ([] : List ElementId).length + circuit.size := by simp
  obtain ⟨done, ⟨_, fed, feeding⟩, _⟩ := Inference.run_keeps
    (fun _ _ supplied => supplied.tended.tending.queued)
    (fun _ _ _ _ supplied waiting => supplied.round tree valid waiting) start enough
  exact ⟨fed, _, rfl, feeding⟩

theorem length_logic (valid : circuit.validate = .ok ()) {id : ElementId}
    (isLogic : circuit.IsLogic id) : (circuit.pinsOf id).length = 4 := by
  obtain ⟨element, held, isLogic⟩ := isLogic
  have parts := (validate_ok_iff.mp valid id element held).2
  cases kind : element.kind with
  | gate | memory =>
      rw [kind] at parts
      exact parts
  | timer =>
      rw [kind] at parts
      exact parts.1
  | _ => simp [kind, Kind.isLogic] at isLogic

theorem map_direction {pins : List ElementId} (four : pins.length = 4) (unique : pins.Nodup)
    {output : ElementId} (member : output ∈ pins)
    (all : ∀ pin ∈ pins, made pin = if pin = output then .output else .input) :
    (pins.map made).Perm [.output, .input, .input, .input] := by
  have first : pins.Perm (output :: pins.erase output) := List.perm_cons_erase member
  have three : (pins.erase output).length = 3 := by
    rw [List.length_erase_of_mem member, four]
  have inputs : (pins.erase output).map made = List.replicate 3 .input := by
    rw [List.eq_replicate_iff, List.length_map]
    refine ⟨three, fun direction member => ?_⟩
    obtain ⟨pin, inside, rfl⟩ := List.mem_map.mp member
    obtain ⟨different, listed⟩ := unique.mem_erase_iff.mp inside
    rw [all pin listed, if_neg different]
  have mapped := first.map made
  rwa [List.map_cons, inputs, all output member, if_pos rfl] at mapped

theorem Ends.consumed {input : ElementId} (ends : circuit.Ends made fed input)
    (feeds : ∀ id output, circuit.IsLogic id → output ∈ circuit.pinsOf id →
      made output = .output →
        circuit.Joined (fed output) output ∧ made (fed output) = .input)
    (isInput : made input = .input) {pin : ElementId} (joined : circuit.Joined input pin) :
    circuit.Consumed pin := by
  induction ends generalizing pin with
  | signal isSignalPin fixed => exact .signal isSignalPin fixed joined
  | @onward id input output isLogic member other isOutput _ ih =>
      obtain ⟨fedJoined, fedInput⟩ := feeds id output isLogic other isOutput
      have different : input ≠ output := by
        rintro rfl
        rw [isInput] at isOutput
        contradiction
      exact .through isLogic (ih fedInput fedJoined) other member different joined

theorem Tree.allotted (tree : circuit.Tree Kind.Owns) (valid : circuit.validate = .ok ()) :
    circuit.Allotted (circuit.resolveDirections circuit.adjacency).1.direction := by
  obtain ⟨fed, inference, same, feeding⟩ := tree.feeding valid
  have directed := tree.directed valid
  rw [← same] at directed ⊢
  refine ⟨?_, directed.relays, ?_, directed.endpoints, ⟨fed, ?_⟩, ?_⟩
  · intro pin isPin isSignalPin
    obtain ⟨direction, fixed, known⟩ := tree.signal_fixed isPin isSignalPin
    have drawn : circuit.direction pin = direction := direction_of_fixed fixed
    exact ⟨direction, fixed, known, by rw [feeding.kept pin (by rwa [drawn]), drawn]⟩
  · intro id isLogic
    rcases feeding.shaped id isLogic with none | ⟨output, member, all⟩
    · left
      rw [List.eq_replicate_iff, List.length_map]
      refine ⟨length_logic valid isLogic, fun direction member => ?_⟩
      obtain ⟨pin, owned, rfl⟩ := List.mem_map.mp member
      exact none pin owned
    · exact Or.inr (map_direction (length_logic valid isLogic) (tree.nodup_pinsOf id) member all)
  · intro id output isLogic member isOutput
    obtain ⟨joined, isInput⟩ := feeding.feeds id output isLogic member isOutput
    exact ⟨joined, isInput, feeding.ends _ isInput⟩
  · intro id isLogic unconsumed pin member
    rcases feeding.shaped id isLogic with none | ⟨output, owned, all⟩
    · exact none pin member
    · have isOutput : inference.circuit.direction output = .output := by simp [all output owned]
      obtain ⟨joined, isInput⟩ := feeding.feeds id output isLogic owned isOutput
      exact absurd ((feeding.ends _ isInput).consumed feeding.feeds isInput joined)
        (unconsumed output owned)

/-- What compilation makes of the directions of a circuit that was built by calls. -/
theorem prepared_allotted (name : String) {calls : List Call}
    (building : ∀ call ∈ calls, call.isBuilding) {circuit : Circuit}
    (built : circuit = (empty name).afterCalls calls) (valid : circuit.validate = .ok ()) :
    circuit.Allotted circuit.prepared.direction := by
  have sound : circuit.Sound Rules.any := built ▸ Build.sound_afterBuilding name building
  have tree := sound.owns valid
  rw [tree.prepared_eq sound.settled, direction_evaluatedBy]
  exact tree.allotted valid

theorem forked_allotted : (∀ call ∈ forked, call.isBuilding) ∧
    ∃ circuit, circuit = (empty "plant").afterCalls forked ∧ circuit.validate = .ok () ∧
      circuit.pinsDirected .output = [4, 7] ∧
        circuit.prepared.pinsDirected .output = [4, 7, 13, 18] ∧
          circuit.Allotted circuit.prepared.direction := by
  have building : ∀ call ∈ forked, call.isBuilding := by decide
  have valid : ((empty "plant").afterCalls forked).validate = .ok () := by decide +kernel
  exact ⟨building, _, rfl, valid, by decide +kernel, by decide +kernel,
    prepared_allotted "plant" building rfl valid⟩

end Circuit

end RelayLogic
