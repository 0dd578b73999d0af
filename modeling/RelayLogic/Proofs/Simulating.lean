import RelayLogic.Proofs.Editing
import RelayLogic.Proofs.Loading
import RelayLogic.Proofs.Steadiness
import RelayLogic.Proofs.Translation

/-!
Simulators of a circuit and of what is read from its netlist. They fail alike, and tags have the
same values in both as long as the netlist leaves feedback loops alone.
-/

namespace RelayLogic

namespace Circuit

variable {circuit copy : Circuit} {rename : Nat → Nat}

theorem isTag_of_mem_tags {tag : ElementId} {initial : Tri} (listed : (tag, initial) ∈ circuit.tags) :
    circuit.IsTag tag := by
  obtain ⟨element, held, asked⟩ := mem_collect.mp listed
  refine ⟨element, held, ?_⟩
  cases kind : element.kind <;> simp [kind, Kind.isTag] at asked ⊢

theorem isTag_of_findTag {name : String} {tag : ElementId} (found : circuit.findTag name = some tag) :
    circuit.IsTag tag := by
  obtain ⟨⟨_, initial⟩, among, rfl⟩ := Option.map_eq_some_iff.mp found
  exact isTag_of_mem_tags (List.mem_of_find?_eq_some among)

theorem Readied.findTag {ready : Circuit} (readied : circuit.Readied ready) :
    ready.findTag = circuit.findTag := by
  funext name
  rw [Circuit.findTag, Circuit.findTag, readied.tags, readied.nameOf]

namespace Regroups

variable (regroups : circuit.Regroups rename copy)

include regroups

theorem tags_rename :
    copy.tags = circuit.tags.map fun entry => (rename entry.1, entry.2) := by
  unfold tags collect
  rw [List.filterMap_eq_flatMap_toList, List.filterMap_eq_flatMap_toList]
  refine regroups.flatMap_ids (fun id => ?_) fun first second bound less one _ => ?_
  · cases held : circuit.get? id with
    | none => rw [regroups.get?_rename_none held]; rfl
    | some element =>
        obtain ⟨twin, twinHeld, isTwin⟩ := regroups.each id element held
        obtain ⟨name, kind, owner, children, evaluator, block⟩ := element
        obtain ⟨twinName, twinKind, twinOwner, twinChildren, twinEvaluator, twinBlock⟩ := twin
        obtain rfl := isTwin.kind
        rw [twinHeld]
        cases kind <;> rfl
  · refine regroups.tagsOrdered first second ?_ bound less
    cases held : circuit.get? first with
    | none => simp [held] at one
    | some element =>
        refine ⟨element, held, ?_⟩
        rw [held] at one
        cases kind : element.kind <;> simp [kind, Kind.isTag] at one ⊢

theorem nameOf_rename {tag : ElementId} (isTag : circuit.IsTag tag) :
    copy.nameOf (rename tag) = circuit.nameOf tag := by
  obtain ⟨element, held, isTag⟩ := isTag
  obtain ⟨twin, twinHeld, isTwin⟩ := regroups.each tag element held
  simp only [nameOf, held, twinHeld, isTwin.name isTag]

theorem findTag_rename (name : String) :
    copy.findTag name = (circuit.findTag name).map rename := by
  have named : ∀ entry ∈ circuit.tags,
      (copy.nameOf (rename entry.1) == name) = (circuit.nameOf entry.1 == name) := by
    rintro ⟨tag, initial⟩ listed
    rw [regroups.nameOf_rename (isTag_of_mem_tags listed)]
  rw [findTag, findTag, regroups.tags_rename, List.find?_map, ← List.head?_filter,
    ← List.head?_filter]
  simp only [Function.comp_def]
  rw [List.filter_congr named, Option.map_map, Option.map_map]
  rfl

theorem lookup_tags_rename (tag : ElementId) :
    copy.tags.lookup (rename tag) = circuit.tags.lookup tag := by
  rw [regroups.tags_rename]
  induction circuit.tags with
  | nil => rfl
  | cons entry tags ih =>
      rw [List.map_cons, List.lookup_cons, List.lookup_cons, regroups.beq_rename, ih]

end Regroups

end Circuit

namespace Simulation

variable {simulator made : Simulator} {plan written : Plan}

theorem map_ok {action : Simulation α} {answer : α} (done : action simulator = .ok answer made)
    (view : α → β) : (view <$> action) simulator = .ok (view answer) made := by
  show EStateM.map view action simulator = _
  simp only [EStateM.map, done]

theorem map_error {action : Simulation α} {error : Error}
    (failed : action simulator = .error error made) (view : α → β) :
    (view <$> action) simulator = .error error made := by
  show EStateM.map view action simulator = _
  simp only [EStateM.map, failed]

theorem step_ok (compiled : compile simulator = .ok plan made) :
    step simulator = .ok (plan.evaluate.changes made.reported)
      { made with plan := some plan.evaluate, reported := plan.evaluate.observed } := by
  simp only [step, bind, EStateM.bind, compiled]
  rfl

theorem setElement_ok (compiled : compile simulator = .ok plan made) {element : ElementId}
    {value : Tri} (set : plan.setValue element value = .ok written) :
    setElement element value simulator = .ok () { made with plan := some written } := by
  simp only [setElement, bind, EStateM.bind, compiled, set]
  rfl

theorem setTag_found {name : String} {tag : ElementId}
    (found : simulator.circuit.findTag name = some tag) (value : Tri) :
    setTag name value simulator = setElement tag value simulator := by
  have seen : (get : Simulation Simulator) simulator = .ok simulator simulator := rfl
  simp only [setTag, bind, EStateM.bind, seen, Simulator.tagNamed, found]

theorem setTag_missing {name : String} (missing : simulator.circuit.findTag name = none)
    (value : Tri) : setTag name value simulator = .error (.tagNotFound name) simulator := by
  have seen : (get : Simulation Simulator) simulator = .ok simulator simulator := rfl
  simp only [setTag, bind, EStateM.bind, seen, Simulator.tagNamed, missing]
  rfl

end Simulation

namespace Operation

variable {operation : Operation} {simulator made : Simulator}

def plays : Operation → Bool
  | step | setTag _ _ => true
  | _ => false

def outcome (answer : Except Error Answer) : Except Error Unit :=
  answer.map fun _ => ()

theorem of_perform_ok {answer : Answer} (done : operation.perform simulator = .ok answer made) :
    outcome (operation.answer simulator) = .ok () ∧
      Change.after operation.perform simulator = made := by
  rw [Operation.answer, Change.after, done]
  exact ⟨rfl, rfl⟩

theorem of_perform_error {error : Error} (failed : operation.perform simulator = .error error made) :
    outcome (operation.answer simulator) = .error error ∧
      Change.after operation.perform simulator = made := by
  rw [Operation.answer, Change.after, failed]
  exact ⟨rfl, rfl⟩

end Operation

namespace Simulator

open Operation (outcome)

theorem tagValue_found {simulator : Simulator} {name : String} {tag : ElementId}
    (found : simulator.circuit.findTag name = some tag) :
    simulator.tagValue name = .ok ((simulator.plan.bind (·.value tag)).getD
      ((simulator.circuit.tags.lookup tag).getD .unknown)) := by
  have named : simulator.tagNamed name = .ok tag := by simp only [tagNamed, found]
  simp only [tagValue, named, bind, Except.bind]
  cases simulator.plan.bind (·.value tag) <;> rfl

theorem tagValue_missing {simulator : Simulator} {name : String}
    (missing : simulator.circuit.findTag name = none) :
    simulator.tagValue name = .error (.tagNotFound name) := by
  have named : simulator.tagNamed name = .error (.tagNotFound name) := by
    simp only [tagNamed, missing]
  simp only [tagValue, named, bind, Except.bind]

section

variable {circuit copy : Circuit} {rename : Nat → Nat} {settings : Settings}
  {watched : Nat → Prop}

structure Running (circuit : Circuit) (rename : Nat → Nat) (copy : Circuit) (settings : Settings)
    (watched : Nat → Prop) (plan other : Plan) : Prop where
  agrees : Plan.Agrees rename (circuit.slotShift rename copy (.new settings.resolution)) watched
    plan other
  slot : plan.slot = (circuit.prepared.planOf (.new settings.resolution)).slot

/-- Whether simulators of a circuit and of its copy are as far as each other. -/
inductive Alongside (circuit : Circuit) (rename : Nat → Nat) (copy : Circuit) (settings : Settings)
    (watched : Nat → Prop) : Simulator → Simulator → Prop
  | fresh : Alongside circuit rename copy settings watched (new circuit settings)
      (new copy settings)
  | running {plan other reported otherReported} :
      Running circuit rename copy settings watched plan other →
        Alongside circuit rename copy settings watched
          ⟨circuit.prepared, settings, some plan, reported⟩
          ⟨copy.prepared, settings, some other, otherReported⟩

namespace Alongside

variable {simulator twin : Simulator}
  (alongside : Alongside circuit rename copy settings watched simulator twin)

include alongside

theorem compile (nonzero : settings.resolution ≠ 0)
    (start : Plan.Agrees rename (circuit.slotShift rename copy (.new settings.resolution)) watched
      (circuit.prepared.planOf (.new settings.resolution))
      (copy.prepared.planOf (.new settings.resolution))) :
    ∃ plan other reported otherReported, Running circuit rename copy settings watched plan other ∧
      Simulation.compile simulator =
        .ok plan ⟨circuit.prepared, settings, some plan, reported⟩ ∧
      Simulation.compile twin =
        .ok other ⟨copy.prepared, settings, some other, otherReported⟩ := by
  cases alongside with
  | fresh =>
      exact ⟨_, _, _, _, ⟨start, rfl⟩, Simulation.compile_fresh rfl (circuit.compile_ok nonzero),
        Simulation.compile_fresh rfl (copy.compile_ok nonzero)⟩
  | running running =>
      exact ⟨_, _, _, _, running, Simulation.compile_planned rfl, Simulation.compile_planned rfl⟩

variable (regroups : circuit.Regroups rename copy)

include regroups

theorem findTag (name : String) : simulator.circuit.findTag name = circuit.findTag name ∧
    twin.circuit.findTag name = (circuit.findTag name).map rename := by
  rw [← regroups.findTag_rename]
  cases alongside with
  | fresh => exact ⟨rfl, rfl⟩
  | running _ =>
      simp only [regroups.readied.findTag, regroups.copyReadied.findTag, and_self]

theorem perform (nonzero : settings.resolution ≠ 0)
    (start : Plan.Agrees rename (circuit.slotShift rename copy (.new settings.resolution)) watched
      (circuit.prepared.planOf (.new settings.resolution))
      (copy.prepared.planOf (.new settings.resolution)))
    {operation : Operation} (plays : operation.plays) :
    outcome (operation.answer twin) = outcome (operation.answer simulator) ∧
      Alongside circuit rename copy settings watched (Change.after operation.perform simulator)
        (Change.after operation.perform twin) := by
  obtain ⟨plan, other, reported, otherReported, running, compiled, twinCompiled⟩ :=
    alongside.compile nonzero start
  cases operation with
  | step =>
      have done : Operation.step.perform simulator = .ok (.changes _) _ :=
        Simulation.map_ok (Simulation.step_ok compiled) _
      have twinDone : Operation.step.perform twin = .ok (.changes _) _ :=
        Simulation.map_ok (Simulation.step_ok twinCompiled) _
      obtain ⟨outcome, after⟩ := Operation.of_perform_ok done
      obtain ⟨twinOutcome, twinAfter⟩ := Operation.of_perform_ok twinDone
      rw [outcome, twinOutcome, after, twinAfter]
      exact ⟨rfl, .running ⟨running.agrees.evaluate, (Plan.slot_evaluate plan).trans running.slot⟩⟩
  | setTag name value =>
      obtain ⟨named, twinNamed⟩ := alongside.findTag regroups name
      cases found : circuit.findTag name with
      | none =>
          rw [found] at named twinNamed
          have failed : (Operation.setTag name value).perform simulator = .error _ _ :=
            Simulation.map_error (Simulation.setTag_missing named value) _
          have twinFailed : (Operation.setTag name value).perform twin = .error _ _ :=
            Simulation.map_error (Simulation.setTag_missing twinNamed value) _
          obtain ⟨outcome, after⟩ := Operation.of_perform_error failed
          obtain ⟨twinOutcome, twinAfter⟩ := Operation.of_perform_error twinFailed
          rw [outcome, twinOutcome, after, twinAfter]
          exact ⟨rfl, alongside⟩
      | some tag =>
          rw [found] at named twinNamed
          have isTag := Circuit.isTag_of_findTag found
          obtain ⟨slot, _, placed⟩ := regroups.slot_tag isTag (.new settings.resolution)
          rw [← running.slot] at placed
          obtain ⟨written, otherWritten, set, twinSet, agrees⟩ :=
            running.agrees.setValue placed value
          have same : written.slot = plan.slot := by
            obtain ⟨_, _, rfl⟩ := Plan.setValue_eq set
            rfl
          have done : (Operation.setTag name value).perform simulator = .ok .done _ :=
            Simulation.map_ok ((Simulation.setTag_found named value).trans
              (Simulation.setElement_ok compiled set)) _
          have twinDone : (Operation.setTag name value).perform twin = .ok .done _ :=
            Simulation.map_ok ((Simulation.setTag_found twinNamed value).trans
              (Simulation.setElement_ok twinCompiled twinSet)) _
          obtain ⟨outcome, after⟩ := Operation.of_perform_ok done
          obtain ⟨twinOutcome, twinAfter⟩ := Operation.of_perform_ok twinDone
          rw [outcome, twinOutcome, after, twinAfter]
          exact ⟨rfl, .running ⟨agrees, same.trans running.slot⟩⟩
  | _ => contradiction

theorem tagValue (watches : ∀ tag slot, circuit.IsTag tag →
      (circuit.prepared.planOf (.new settings.resolution)).slot tag = some slot → watched slot)
    (name : String) : twin.tagValue name = simulator.tagValue name := by
  obtain ⟨named, twinNamed⟩ := alongside.findTag regroups name
  have readied := regroups.readied
  have copyReadied := regroups.copyReadied
  cases found : circuit.findTag name with
  | none =>
      rw [found] at named twinNamed
      rw [tagValue_missing named, tagValue_missing twinNamed]
  | some tag =>
      rw [found] at named twinNamed
      have values : twin.plan.bind (·.value (rename tag)) = simulator.plan.bind (·.value tag) := by
        cases alongside with
        | fresh => rfl
        | @running plan other _ _ running =>
            have isTag := Circuit.isTag_of_findTag found
            obtain ⟨slot, _, placed⟩ := regroups.slot_tag isTag (.new settings.resolution)
            have isWatched := watches tag slot isTag placed
            rw [← running.slot] at placed
            exact running.agrees.value placed isWatched
      have tags : twin.circuit.tags.lookup (rename tag) = simulator.circuit.tags.lookup tag := by
        cases alongside with
        | fresh => exact regroups.lookup_tags_rename tag
        | running _ =>
            simp only [readied.tags, copyReadied.tags]
            exact regroups.lookup_tags_rename tag
      rw [tagValue_found named, tagValue_found twinNamed, values, tags]

theorem run (nonzero : settings.resolution ≠ 0)
    (start : Plan.Agrees rename (circuit.slotShift rename copy (.new settings.resolution)) watched
      (circuit.prepared.planOf (.new settings.resolution))
      (copy.prepared.planOf (.new settings.resolution)))
    {operations : List Operation} (play : ∀ operation ∈ operations, operation.plays) :
    (twin.answers operations).map outcome = (simulator.answers operations).map outcome ∧
      Alongside circuit rename copy settings watched (simulator.after operations)
        (twin.after operations) := by
  induction operations generalizing simulator twin with
  | nil => exact ⟨rfl, alongside⟩
  | cons operation operations ih =>
      obtain ⟨plays, restPlay⟩ := List.forall_mem_cons.mp play
      obtain ⟨same, next⟩ := alongside.perform regroups nonzero start plays
      obtain ⟨rest, last⟩ := ih next restPlay
      refine ⟨?_, last⟩
      rw [answers, answers, List.map_cons, List.map_cons, same, rest]

end Alongside

variable (regroups : circuit.Regroups rename copy) (valid : circuit.validate = .ok ())
  (copyValid : copy.validate = .ok ()) (nonzero : settings.resolution ≠ 0)
  {operations : List Operation} (play : ∀ operation ∈ operations, operation.plays)

include regroups valid copyValid nonzero play

theorem outcomes_rename : ((new copy settings).answers operations).map outcome =
    ((new circuit settings).answers operations).map outcome := by
  have start : Plan.Agrees rename (circuit.slotShift rename copy (.new settings.resolution))
      (fun _ => False) (circuit.prepared.planOf (.new settings.resolution))
      (copy.prepared.planOf (.new settings.resolution)) :=
    regroups.agrees_planOf valid copyValid (fun _ watched => watched.elim)
      fun _ watched => watched.elim
  exact (Alongside.fresh.run regroups nonzero start play).1

theorem tagValue_rename {kept : Nat → Bool} (loops : ∀ slot, kept slot ↔
      (circuit.prepared.planOf (.new settings.resolution)).dependencies.Loops slot)
    (keeps : circuit.KeepsOrder rename (.new settings.resolution) kept) (name : String) :
    ((new copy settings).after operations).tagValue name =
      ((new circuit settings).after operations).tagValue name := by
  have start := regroups.agrees_watched valid copyValid loops keeps
  have whole := (Alongside.fresh.run regroups nonzero start play).2
  exact whole.tagValue regroups
    (fun tag slot isTag placed => regroups.watched_tag isTag placed) name

end

end Simulator

namespace Diagram

open Operation (outcome)

variable {circuit : Circuit}

/-- Simulators of a translated diagram and of its netlist fail alike. Where the netlist keeps the
inputs of tags that feedback loops drive in order, tags have the same values in both; it does where
there are no loops, and where the contexts of each project follow each other. -/
theorem netlist_simulates {diagram : Diagram} (done : diagram.toCircuit = .ok circuit)
    (few : circuit.entries.length < 2 ^ 32)
    (short : ∀ tag ∈ diagram.tags, (Text.encodeUtf8 tag.name).length < 2 ^ 32)
    {settings : Settings} (nonzero : settings.resolution ≠ 0) :
    ∃ bytes copy, circuit.encode = .ok bytes ∧ Netlist.decode bytes = .ok copy ∧
      (∀ operations : List Operation, (∀ operation ∈ operations, operation.plays) →
        ((Simulator.new copy settings).answers operations).map outcome =
            ((Simulator.new circuit settings).answers operations).map outcome ∧
          (circuit.Steady settings.resolution → ∀ name,
            ((Simulator.new copy settings).after operations).tagValue name =
              ((Simulator.new circuit settings).after operations).tagValue name)) ∧
      (∀ plan prepared, circuit.compile settings.resolution = .ok (plan, prepared) →
        plan.cyclesDetected = 0 → circuit.Steady settings.resolution) ∧
      (diagram.Contiguous → circuit.Steady settings.resolution) := by
  classical
  obtain ⟨sketch, valid⟩ := toCircuit_sketch done
  have shortTags : circuit.ShortTags := by
    intro id element held isTag
    obtain ⟨tag, member, same⟩ := sketch.named id element held isTag
    exact same ▸ short tag member
  obtain ⟨bytes, copy, encoded, decoded, renames⟩ := sketch.laid.decode_encode valid few shortTags
  obtain ⟨sound, copyValid, _⟩ := Netlist.decode_loads decoded
  have regroups := sketch.laid.regroups valid renames
    (sound.nests copyValid (fun _ same => same) sound.noMemory_netlist)
  refine ⟨bytes, copy, encoded, decoded, fun operations play => ⟨?_, fun steady name => ?_⟩,
    fun plan prepared compiled acyclic => Circuit.steady_of_acyclic compiled acyclic,
    fun contiguous => ?_⟩
  · exact Simulator.outcomes_rename regroups valid copyValid nonzero play
  · have loops : ∀ slot, decide
        ((circuit.prepared.planOf (.new settings.resolution)).dependencies.Loops slot) ↔
          (circuit.prepared.planOf (.new settings.resolution)).dependencies.Loops slot :=
      fun _ => decide_eq_true_iff
    exact Simulator.tagValue_rename regroups valid copyValid nonzero play loops
      (regroups.tree.keepsOrder regroups.settled valid nonzero steady loops) name
  · intro plan prepared _ tag first second _ less one other
    rwa [numberOf_sketch sketch contiguous one.lt_size,
      numberOf_sketch sketch contiguous other.lt_size]

def sealed : Diagram :=
  ⟨none, [⟨"start", .true, [], 1⟩, ⟨"motor", .unknown, [], 2⟩],
    [⟨"Mill", "Line", [⟨"SIGNAL", "button", none, some "start", [], 5⟩,
      ⟨"SIGNAL", "coil", none, some "motor", [], 6⟩, ⟨"OR", "hold", none, none, [], 7⟩],
      [⟨⟨"button", some "out", false⟩, ⟨"hold", some "left", false⟩, 8⟩,
        ⟨⟨"coil", some "out", false⟩, ⟨"hold", some "top", false⟩, 9⟩,
        ⟨⟨"hold", some "right", false⟩, ⟨"coil", some "in", false⟩, 10⟩], 4⟩]⟩

theorem sealed_simulates : ∃ circuit bytes copy, sealed.toCircuit = .ok circuit ∧
    circuit.encode = .ok bytes ∧ Netlist.decode bytes = .ok copy ∧
      ∀ operations : List Operation, (∀ operation ∈ operations, operation.plays) →
        ((Simulator.new copy .default).answers operations).map outcome =
            ((Simulator.new circuit .default).answers operations).map outcome ∧
          ∀ name, ((Simulator.new copy .default).after operations).tagValue name =
            ((Simulator.new circuit .default).after operations).tagValue name := by
  have count : sealed.toCircuit.toOption.map (·.entries.length) = some 21 := by decide +kernel
  have short : ∀ tag ∈ sealed.tags, (Text.encodeUtf8 tag.name).length < 2 ^ 32 := by
    decide +kernel
  have contiguous : sealed.Contiguous := by
    intro first middle last among
    have length := among.length_le
    contradiction
  cases done : sealed.toCircuit with
  | error error =>
      rw [done] at count
      contradiction
  | ok circuit =>
      rw [done] at count
      have few : circuit.entries.length < 2 ^ 32 := by
        rw [show circuit.entries.length = 21 from Option.some.inj count]
        decide
      obtain ⟨bytes, copy, encoded, decoded, alongside, -, steady⟩ :=
        netlist_simulates done few short (show Settings.default.resolution ≠ 0 by decide)
      refine ⟨circuit, bytes, copy, rfl, encoded, decoded, fun operations play => ?_⟩
      obtain ⟨outcomes, values⟩ := alongside operations play
      exact ⟨outcomes, values (steady contiguous)⟩

def crossed : Diagram :=
  ⟨none, [⟨"total", .unknown, [], 1⟩, ⟨"first", .true, [], 2⟩, ⟨"second", .true, [], 3⟩],
    [⟨"east", "hall", [], [], 5⟩,
      ⟨"west", "upper", [⟨"SIGNAL", "a", none, some "first", [], 8⟩,
        ⟨"SIGNAL", "b", none, some "second", [], 9⟩, ⟨"SIGNAL", "t", none, some "total", [], 10⟩,
        ⟨"AND", "rise", none, none, [], 11⟩],
        [⟨⟨"a", some "out", false⟩, ⟨"rise", some "left", false⟩, 12⟩,
          ⟨⟨"a", some "out", false⟩, ⟨"rise", some "top", false⟩, 13⟩,
          ⟨⟨"rise", some "right", false⟩, ⟨"b", some "in", false⟩, 14⟩,
          ⟨⟨"a", some "out", false⟩, ⟨"t", some "in", false⟩, 15⟩], 7⟩,
      ⟨"east", "lower", [⟨"SIGNAL", "a", none, some "first", [], 18⟩,
        ⟨"SIGNAL", "b", none, some "second", [], 19⟩, ⟨"SIGNAL", "t", none, some "total", [], 20⟩,
        ⟨"AND", "fall", none, none, [], 21⟩],
        [⟨⟨"b", some "out", false⟩, ⟨"fall", some "left", false⟩, 22⟩,
          ⟨⟨"b", some "out", false⟩, ⟨"fall", some "top", false⟩, 23⟩,
          ⟨⟨"fall", some "right", true⟩, ⟨"a", some "in", false⟩, 24⟩,
          ⟨⟨"b", some "out", false⟩, ⟨"t", some "in", false⟩, 25⟩], 17⟩]⟩

/-- The netlist puts the lower relay first, so the ring is cut at another place. -/
theorem crossed_differs : ∃ circuit bytes copy, crossed.toCircuit = .ok circuit ∧
    circuit.encode = .ok bytes ∧ Netlist.decode bytes = .ok copy ∧
      ((Simulator.new circuit .default).after [.step]).tagValue "second" = .ok .true ∧
      ((Simulator.new copy .default).after [.step]).tagValue "second" = .ok .false := by
  have differs : (do
      let circuit ← crossed.toCircuit
      let bytes ← circuit.encode
      let copy ← Netlist.decode bytes
      return (← ((Simulator.new circuit .default).after [.step]).tagValue "second",
        ← ((Simulator.new copy .default).after [.step]).tagValue "second") :
          Except Error (Tri × Tri)) = .ok (.true, .false) := by decide +kernel
  obtain ⟨circuit, done, differs⟩ := Check.bind_ok_iff.mp differs
  obtain ⟨bytes, encoded, differs⟩ := Check.bind_ok_iff.mp differs
  obtain ⟨copy, decoded, differs⟩ := Check.bind_ok_iff.mp differs
  obtain ⟨first, value, differs⟩ := Check.bind_ok_iff.mp differs
  obtain ⟨second, twinValue, same⟩ := Check.bind_ok_iff.mp differs
  cases same
  exact ⟨circuit, bytes, copy, done, encoded, decoded, value, twinValue⟩

end Diagram

end RelayLogic
