import RelayLogic.Proofs.Directing
import RelayLogic.Proofs.Joining

/-!
Inference follows each input pin once. A pin that has a direction keeps it, pins are queued when
they get theirs, and so the rounds come to an end with nothing left to follow.
-/

namespace RelayLogic.Inference

variable {circuit : Circuit} {inference : Inference}

def Grows (before after : Inference) : Prop :=
  ∀ pin, before.circuit.direction pin ≠ .undefined →
    after.circuit.direction pin = before.circuit.direction pin

theorem Grows.trans {first second third : Inference} (before : Grows first second)
    (after : Grows second third) : Grows first third := by
  intro pin directed
  have same := before pin directed
  rw [after pin (by rwa [same]), same]

inductive Oriented (circuit : Circuit) (inference : Inference) (reached : ElementId)
    (made : Inference) : Prop
  | closed (same : made = inference)
      (directed : circuit.isSignalPin reached ∨
        inference.circuit.direction reached ≠ .undefined)
  | opened {owner : ElementId} (isLogic : circuit.IsLogic owner)
      (member : reached ∈ circuit.pinsOf owner)
      (undirected : inference.circuit.direction reached = .undefined)
      (alike : made.circuit.Alike circuit)
      (directions : ∀ pin, made.circuit.direction pin =
        if pin = reached then .output
        else if pin ∈ circuit.pinsOf owner ∧ inference.circuit.direction pin = .undefined then .input
        else inference.circuit.direction pin)
      (queue : made.queue = inference.queue ++ (circuit.pinsOf owner).filter fun pin =>
        inference.becomesInput reached pin && circuit.adjacency.touches pin)

theorem direction_outside {made : Inference} {owner reached : ElementId}
    (member : reached ∈ circuit.pinsOf owner)
    (directions : ∀ pin, made.circuit.direction pin =
      if pin = reached then .output
      else if pin ∈ circuit.pinsOf owner ∧ inference.circuit.direction pin = .undefined then .input
      else inference.circuit.direction pin)
    {pin : ElementId} (outside : pin ∉ circuit.pinsOf owner) :
    made.circuit.direction pin = inference.circuit.direction pin := by
  have different : pin ≠ reached := by
    rintro rfl
    exact outside member
  simp only [directions, different, outside, false_and, ↓reduceIte]

theorem oriented (tree : circuit.Tree Kind.Owns) (valid : circuit.validate = .ok ())
    (alike : inference.circuit.Alike circuit) {root reached : ElementId}
    (joined : circuit.Joined root reached) :
    Oriented circuit inference reached (orient circuit.adjacency inference reached) := by
  have isPin := joined.isPin valid
  by_cases opened : isOpen inference.circuit reached
  · have both := opened
    rw [isOpen, Bool.and_eq_true, beq_iff_eq, Bool.not_eq_true', alike.isSignalPin] at both
    obtain ⟨owner, member, pinOf⟩ := tree.pinOf isPin
    cases pinOf with
    | relay _ isRelay _ =>
        rw [joined.2.1] at isRelay
        contradiction
    | signal _ isSignalPin _ =>
        rw [both.2] at isSignalPin
        contradiction
    | logic isLogic _ _ _ =>
        have owned : inference.circuit.owner reached = some owner := by
          rw [alike.owner]
          exact (tree.mem_pinsOf.mp member).2
        have unique : (inference.circuit.pinsOf owner).Nodup := by
          rw [alike.pinsOf]
          exact tree.nodup_pinsOf owner
        obtain ⟨made, directions, queue⟩ :=
          orient_open circuit.adjacency opened (by rwa [alike.isPin]) owned unique
        rw [alike.pinsOf] at directions queue
        exact .opened isLogic member both.1 (made.trans alike) directions queue
  · refine .closed (orient_closed opened) ?_
    rw [isOpen, alike.isSignalPin] at opened
    by_cases isSignalPin : circuit.isSignalPin reached
    · exact Or.inl isSignalPin
    · exact Or.inr fun undirected => opened (by simp [undirected, isSignalPin])

theorem Oriented.grows {reached : ElementId} {made : Inference}
    (oriented : Oriented circuit inference reached made) : Grows inference made := by
  cases oriented with
  | closed same _ =>
      intro pin _
      rw [same]
  | opened _ _ undirected _ directions _ =>
      intro pin directed
      have different : pin ≠ reached := by
        rintro rfl
        exact directed undirected
      simp [directions, different, directed]

/-- A state of inference with the pins that were followed. -/
structure Queued (circuit : Circuit) (done : List ElementId) (inference : Inference) : Prop where
  alike : inference.circuit.Alike circuit
  inputs : ∀ pin ∈ done ++ inference.queue, inference.circuit.direction pin = .input
  unique : (done ++ inference.queue).Nodup

theorem Queued.orient {done : List ElementId} {reached : ElementId} {made : Inference}
    (queued : Queued circuit done inference) (tree : circuit.Tree Kind.Owns)
    (oriented : Oriented circuit inference reached made) : Queued circuit done made := by
  have grows := oriented.grows
  cases oriented with
  | closed same _ => exact same ▸ queued
  | @opened owner _ _ undirected alike directions queue =>
      have added : ∀ pin ∈ (circuit.pinsOf owner).filter fun pin =>
          inference.becomesInput reached pin && circuit.adjacency.touches pin,
          inference.circuit.direction pin = .undefined ∧ made.circuit.direction pin = .input := by
        intro pin member
        rw [List.mem_filter, Bool.and_eq_true, becomesInput, Bool.and_eq_true, bne_iff_ne,
          beq_iff_eq] at member
        obtain ⟨owned, ⟨different, undirected⟩, _⟩ := member
        exact ⟨undirected, by simp [directions, different, owned, undirected]⟩
      refine ⟨alike, ?_, ?_⟩
      · intro pin member
        rw [queue, ← List.append_assoc] at member
        rcases List.mem_append.mp member with old | new
        · have input := queued.inputs pin old
          rw [grows pin (by simp [input]), input]
        · exact (added pin new).2
      · rw [queue, ← List.append_assoc]
        refine List.nodup_append.mpr ⟨queued.unique, (tree.nodup_pinsOf owner).filter _, ?_⟩
        rintro pin old _ new rfl
        have input := queued.inputs pin old
        rw [(added pin new).1] at input
        contradiction

theorem Queued.length_le {done : List ElementId} (queued : Queued circuit done inference) :
    done.length + inference.queue.length ≤ circuit.size := by
  have within : done ++ inference.queue ⊆ List.range circuit.size := by
    intro (pin : Nat) member
    have isPin : inference.circuit.isPin pin :=
      Circuit.isPin_of_direction (by rw [queued.inputs pin member]; decide)
    obtain ⟨element, _, held, _⟩ := Circuit.isPin_held isPin
    rw [List.mem_range, ← queued.alike.size]
    exact Circuit.get?_lt held
  have bound := (queued.unique.subperm within).length_le
  simpa using bound

def round (circuit : Circuit) (inference : Inference) (pin : ElementId)
    (queue : List ElementId) : Inference :=
  (circuit.endpoints circuit.adjacency pin).foldl (orient circuit.adjacency)
    { inference with queue := queue }

/-- What each round keeps holds at the end, when nothing is left to follow. -/
theorem run_keeps {kept : List ElementId → Inference → Prop}
    (queued : ∀ done inference, kept done inference → Queued circuit done inference)
    (step : ∀ done inference pin queue, kept done inference → inference.queue = pin :: queue →
      kept (done ++ [pin]) (round circuit inference pin queue))
    {fuel : Nat} {done : List ElementId} (start : kept done inference)
    (enough : circuit.size ≤ done.length + fuel) :
    ∃ done, kept done (run circuit.adjacency fuel inference) ∧
      (run circuit.adjacency fuel inference).queue = [] := by
  induction fuel generalizing done inference with
  | zero =>
      have bound := (queued done inference start).length_le
      have empty : inference.queue = [] := List.length_eq_zero_iff.mp (by omega)
      exact ⟨done, start, empty⟩
  | succ fuel ih =>
      cases waiting : inference.queue with
      | nil =>
          have ended : run circuit.adjacency (fuel + 1) inference = inference := by
            simp only [run, waiting]
          rw [ended]
          exact ⟨done, start, waiting⟩
      | cons pin queue =>
          have followed : run circuit.adjacency (fuel + 1) inference =
              run circuit.adjacency fuel (round circuit inference pin queue) := by
            simp only [run, waiting, round, (queued done inference start).alike.endpoints]
          rw [followed]
          apply ih (step done inference pin queue start waiting)
          simp only [List.length_append, List.length_cons, List.length_nil]
          omega

end RelayLogic.Inference
