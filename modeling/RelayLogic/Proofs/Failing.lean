import RelayLogic.Proofs.Altering

/-!
Calls that fail. A building call that fails has checked its arguments and done nothing else, since
after its first change nothing can go wrong any more.
-/

namespace RelayLogic

namespace Build

variable {circuit : Circuit}

def Atomic (build : Build α) (circuit : Circuit) : Prop :=
  ∀ error changed, build circuit = .error error changed → changed = circuit

theorem atomic_of_ok {build : Build α} {answer : α} {made : Circuit}
    (done : build circuit = .ok answer made) : Atomic build circuit := by
  intro error changed failed
  rw [done] at failed
  contradiction

theorem atomic_of_error {build : Build α}
    (failed : ∃ error, build circuit = .error error circuit) : Atomic build circuit := by
  obtain ⟨error, failed⟩ := failed
  intro other changed same
  rw [failed] at same
  cases same
  rfl

theorem Atomic.bind_pure {build : Build α} (atomic : Atomic build circuit) (answer : α → β) :
    Atomic (build >>= fun result => pure (answer result)) circuit := by
  intro error changed failed
  cases result : build circuit with
  | ok first made =>
      rw [bind_ok result] at failed
      cases failed
  | error cause left =>
      rw [bind_error result] at failed
      cases failed
      exact atomic error changed result

theorem Atomic.map {build : Build α} (atomic : Atomic build circuit) (view : α → β) :
    Atomic (view <$> build) circuit := by
  rw [map_eq_pure_bind]
  exact atomic.bind_pure view

theorem atomic_push (owner : ElementId) (name : String) (kind : Kind) :
    Atomic (push owner name kind) circuit :=
  atomic_of_ok rfl

theorem atomic_addContext (project : ElementId) (name : String) :
    Atomic (addContext project name) circuit := by
  rcases addContext_cases circuit project name with ⟨container, held, isProject⟩ | failed
  · exact atomic_of_ok (addContext_ok held isProject name)
  · exact atomic_of_error failed

theorem atomic_addPin (owner : ElementId) (name : String) :
    Atomic (addPin owner name) circuit := by
  rcases addPin_cases circuit owner name with ⟨container, held, contains⟩ | failed
  · exact atomic_of_ok (addPin_ok held contains name)
  · exact atomic_of_error failed

theorem atomic_addWire (owner start stop : ElementId) (invertStart invertStop : Bool) :
    Atomic (addWire owner start stop invertStart invertStop) circuit := by
  rcases addWire_cases circuit owner start stop invertStart invertStop with
    ⟨container, held, contains, arePins, different⟩ | failed
  · exact atomic_of_ok (addWire_ok held contains arePins different invertStart invertStop)
  · exact atomic_of_error failed

theorem atomic_signalFromPins (owner : ElementId) (name : String) (tag : Option ElementId)
    (input output : ElementId) : Atomic (signalFromPins owner name tag input output) circuit := by
  rcases signalFromPins_cases circuit owner name tag input output with
    ⟨container, held, contains, arePins⟩ | failed
  · exact atomic_of_ok (signalFromPins_of_pins held contains name tag arePins)
  · exact atomic_of_error failed

theorem atomic_logicFromPins (owner : ElementId) (kind : Kind) (name : String)
    (pins : List ElementId) : Atomic (logicFromPins owner kind name pins) circuit := by
  rcases logicFromPins_cases circuit owner kind name pins with
    ⟨logic, container, held, contains, arePins⟩ | failed
  · exact atomic_of_ok (logicFromPins_of_pins held contains logic name arePins)
  · exact atomic_of_error failed

theorem atomic_bindTag (signal tag : ElementId) : Atomic (bindTag signal tag) circuit := by
  rcases bindTag_cases circuit signal tag with ⟨isSignal, isTag⟩ | failed
  · obtain ⟨element, held, signals⟩ := isSignal
    obtain ⟨onto, ontoHeld, tags⟩ := isTag
    exact atomic_of_ok (bindTag_ok held signals ontoHeld tags)
  · exact atomic_of_error failed

theorem atomic_setBlock (id : ElementId) (block : BlockRef) :
    Atomic (setBlock id block) circuit := by
  rcases setBlock_cases circuit id block with ⟨element, held⟩ | failed
  · exact atomic_of_ok (change_ok held _)
  · exact atomic_of_error failed

theorem atomic_addLogic (owner : ElementId) {kind : Kind} (logic : kind.isLogic) (name : String) :
    Atomic (addLogic owner kind name) circuit := by
  rcases addLogic_cases circuit owner kind name with ⟨container, held, contains⟩ | failed
  · let names := GatePoint.all.map fun point => name ++ "." ++ point.name
    have pins : (GatePoint.all.mapM fun point => addPin owner (name ++ "." ++ point.name)) circuit =
        .ok (List.range' circuit.size names.length) (circuit.pushPins owner names) := by
      have pushed := mapM_addPin held contains names
      rwa [List.mapM_map] at pushed
    have kept := get?_pushPins_owner held names
    have arePins := isPin_pushPins held names
    have done := logicFromPins_of_pins kept contains logic name arePins
    have begun : addLogic owner kind name circuit = logicFromPins owner kind name
        (List.range' circuit.size names.length) (circuit.pushPins owner names) := by
      rw [addLogic, bind_ok pins]
    exact atomic_of_ok (begun.trans done)
  · exact atomic_of_error failed

theorem atomic_addSignal (owner : ElementId) (name : String) (tag : Option ElementId) :
    Atomic (addSignal owner name tag) circuit := by
  rcases addSignal_cases circuit owner name tag with ⟨container, held, contains, tagged⟩ | failed
  · have next := Circuit.get?_push_owner held (name ++ ".in") (.pin .floating)
    have kept := get?_pushPins_owner held [name ++ ".in", name ++ ".out"]
    have arePins := isPin_pushPins held [name ++ ".in", name ++ ".out"]
    have rest : (do
        let input ← addPin owner (name ++ ".in")
        let output ← addPin owner (name ++ ".out")
        signalFromPins owner name tag input output) circuit =
          signalFromPins owner name tag circuit.size (circuit.size + 1)
            (circuit.pushPins owner [name ++ ".in", name ++ ".out"]) := by
      rw [bind_ok (addPin_ok held contains (name ++ ".in")),
        bind_ok (addPin_ok next contains (name ++ ".out")), Circuit.size_push]
      rfl
    have done := rest.trans (signalFromPins_of_pins kept contains name tag arePins)
    unfold addSignal
    cases tag with
    | none => exact atomic_of_ok done
    | some id =>
        obtain ⟨element, found, isTag⟩ := tagged id rfl
        have checked : expect id .tag Kind.isTag circuit = .ok () circuit := expect_ok found isTag
        exact atomic_of_ok ((bind_ok checked).trans done)
  · exact atomic_of_error failed

theorem atomic_call {call : Call} (building : call.isBuilding) : Atomic call.build circuit := by
  cases call with
  | addProject name => exact (atomic_push Circuit.solution name .project).map some
  | addContext project name => exact (atomic_addContext project name).map some
  | addTag name initial => exact (atomic_push Circuit.solution name _).map some
  | addPin container name => exact (atomic_addPin container name).map some
  | addSignal context name tag => exact (atomic_addSignal context name tag).map some
  | addGate context kind name => exact (atomic_addLogic context rfl name).map some
  | addTimer context kind name delay => exact (atomic_addLogic context rfl name).map some
  | addMemory context kind name => exact (atomic_addLogic context rfl name).map some
  | addWire context start stop invertStart invertStop =>
      exact (atomic_addWire context start stop invertStart invertStop).map some
  | signalFromPins context name tag input output =>
      exact (atomic_signalFromPins context name tag input output).map some
  | logicFromPins context kind name left right top bottom =>
      exact (atomic_logicFromPins context kind name _).map some
  | adopt => contradiction
  | bindTag signal tag => exact (atomic_bindTag signal tag).bind_pure fun _ => none
  | setBlock id block => exact (atomic_setBlock id block).bind_pure fun _ => none

/-- A building call that fails leaves the circuit as it was, whatever its arguments are. -/
theorem unchanged_of_failed {call : Call} (building : call.isBuilding) {circuit changed : Circuit}
    {error : Error} (failed : call.build circuit = .error error changed) : changed = circuit := by
  have atomic : Atomic call.build circuit := atomic_call building
  exact atomic error changed failed

theorem misplaced_unchanged : ∃ circuit call error,
    circuit = (Circuit.empty "plant").afterCalls
      [.addProject "cell", .addContext 1 "line", .addPin 2 "left", .addPin 2 "right"] ∧
    call = Call.logicFromPins 2 (.gate .and) "hold" 3 4 4 2 ∧ error = .wrongKind 2 .pin ∧
    call.isBuilding ∧ call.build circuit = .error error circuit ∧
    ∀ changed, call.build circuit = .error error changed → changed = circuit :=
  ⟨_, _, _, rfl, rfl, rfl, rfl, rfl,
    fun _ failed => unchanged_of_failed rfl failed⟩

end Build

namespace Circuit

open Change (after)

def accepted (circuit : Circuit) : List Call → List Call
  | [] => []
  | call :: calls =>
    match call.build circuit with
    | .ok _ made => call :: made.accepted calls
    | .error _ changed => changed.accepted calls

theorem afterCalls_accepted (circuit : Circuit) {calls : List Call}
    (building : ∀ call ∈ calls, call.isBuilding) :
    circuit.afterCalls (circuit.accepted calls) = circuit.afterCalls calls := by
  induction calls generalizing circuit with
  | nil => rfl
  | cons call calls ih =>
      have later := fun other member => building other (List.mem_cons_of_mem call member)
      have atomic : Build.Atomic call.build circuit :=
        Build.atomic_call (building call List.mem_cons_self)
      have next : circuit.afterCalls (call :: calls) =
          (after call.build circuit).afterCalls calls := rfl
      rw [next]
      cases result : call.build circuit with
      | ok answer made =>
          have kept : circuit.accepted (call :: calls) = call :: made.accepted calls := by
            simp only [accepted, result]
          rw [kept, Build.after_ok result, ← ih made later]
          simp only [afterCalls, List.foldl_cons, Build.after_ok result]
      | error error changed =>
          have left : circuit.accepted (call :: calls) = changed.accepted calls := by
            simp only [accepted, result]
          rw [left, Build.after_error result]
          cases atomic error changed result
          exact ih circuit later

end Circuit

end RelayLogic
