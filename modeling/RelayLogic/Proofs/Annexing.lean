import RelayLogic.Proofs.Leading
import RelayLogic.Proofs.Telling

/-!
Simulators of circuits to which something was added. As long as nothing that is added is connected
to an element that was there before, the plan says the same of these elements, and in every run they
have the same cells and the same changes are told of them, up to the blocks that changes name.
-/

namespace RelayLogic

open Change (after_map)

variable {part whole : Circuit} {settings : Settings}

namespace Operation

def drives : Operation → Bool
  | step | setElement _ _ => true
  | _ => false

/-- Whether the operation is for a circuit, and not for what was added to it alone. -/
def isFor (part whole : Circuit) : Operation → Bool
  | setElement element _ => element < part.size || whole.size ≤ element
  | _ => true

end Operation

theorem Simulation.after_setElement {simulator made : Simulator} {plan : Plan}
    (compiled : compile simulator = .ok plan made) (planned : made.plan = some plan)
    (element : ElementId) (value : Tri) : Change.after (setElement element value) simulator =
      { made with plan := some (plan.written element value) } := by
  cases set : plan.setValue element value with
  | ok written => rw [Change.after, setElement_ok compiled set, Plan.written, set]; rfl
  | error error =>
      rw [Change.after, setElement_error compiled set, Plan.written, set]
      show made = { made with plan := some plan }
      rw [← planned]

namespace Simulator

inductive Beside (part whole : Circuit) (simulator twin : Simulator) : Prop
  | intro {plan other made twinMade} (compiled : Simulation.compile simulator = .ok plan made)
      (twinCompiled : Simulation.compile twin = .ok other twinMade)
      (planned : made.plan = some plan) (twinPlanned : twinMade.plan = some other)
      (annexed : plan.Annexed part whole other)
      (reports : ∀ tag < part.size, twinMade.reported.lookup tag = made.reported.lookup tag)

theorem beside_new (annexed : part.Annexed whole) (nonzero : settings.resolution ≠ 0) :
    Beside part whole (new part settings) (new whole settings) := by
  exact ⟨Simulation.compile_fresh rfl (part.compile_ok nonzero),
    Simulation.compile_fresh rfl (whole.compile_ok nonzero), rfl, rfl, annexed.planned _,
    fun _ _ => rfl⟩

theorem beside_of_planned {simulator twin : Simulator} {plan other : Plan}
    (planned : simulator.plan = some plan) (twinPlanned : twin.plan = some other)
    (annexed : plan.Annexed part whole other)
    (reports : ∀ tag < part.size, twin.reported.lookup tag = simulator.reported.lookup tag) :
    Beside part whole simulator twin :=
  ⟨Simulation.compile_planned planned, Simulation.compile_planned twinPlanned, planned,
    twinPlanned, annexed, reports⟩

/-- Whether two simulators have the same cells of the elements that were there before, and tell the
same changes of them in the next cycle, each with the block that its signal has now. -/
structure Undisturbed (part whole : Circuit) (simulator twin : Simulator) : Prop where
  cells : ∃ plan made other twinMade, Simulation.compile simulator = .ok plan made ∧
    Simulation.compile twin = .ok other twinMade ∧
      ∀ element < part.size, other.value element = plan.value element
  changes : ∃ changes made twinChanges twinMade, Simulation.step simulator = .ok changes made ∧
    Simulation.step twin = .ok twinChanges twinMade ∧
      twinChanges.filter (·.tag < part.size) = changes.map (·.relabel whole) ∧
        ((∀ id < part.size, whole.blockOf id = part.blockOf id) →
          twinChanges.filter (·.tag < part.size) = changes)

namespace Beside

variable {simulator twin : Simulator} (beside : Beside part whole simulator twin)

include beside

theorem undisturbed : Undisturbed part whole simulator twin := by
  obtain ⟨compiled, twinCompiled, _, _, annexed, reports⟩ := beside
  have changes := annexed.evaluate.changes reports
  refine ⟨⟨_, _, _, _, compiled, twinCompiled, fun _ inside => annexed.value inside⟩,
    _, _, _, _, Simulation.step_ok compiled, Simulation.step_ok twinCompiled, changes,
    fun same => ?_⟩
  rw [changes, annexed.evaluate.changes_relabel same]

theorem step : Beside part whole (Change.after Simulation.step simulator)
    (Change.after Simulation.step twin) := by
  obtain ⟨compiled, twinCompiled, _, _, annexed, _⟩ := beside
  rw [Change.after, Change.after, Simulation.step_ok compiled, Simulation.step_ok twinCompiled]
  have next := annexed.evaluate
  exact beside_of_planned rfl rfl next fun tag inside => next.observed inside

theorem setElement (element : ElementId) (value : Tri) :
    Beside part whole (Change.after (Simulation.setElement element value) simulator)
      (Change.after (Simulation.setElement element value) twin) := by
  obtain ⟨compiled, twinCompiled, planned, twinPlanned, annexed, reports⟩ := beside
  rw [Simulation.after_setElement compiled planned,
    Simulation.after_setElement twinCompiled twinPlanned]
  exact beside_of_planned rfl rfl (annexed.written element value) reports

theorem setElement_new {element : ElementId} (beyond : part.size ≤ element) (value : Tri) :
    Beside part whole simulator (Change.after (Simulation.setElement element value) twin) := by
  obtain ⟨compiled, twinCompiled, planned, twinPlanned, annexed, reports⟩ := beside
  rw [Simulation.after_setElement twinCompiled twinPlanned]
  exact ⟨compiled, Simulation.compile_planned rfl, planned, rfl, annexed.written_new beyond value,
    reports⟩

theorem perform {operation : Operation} (drives : operation.drives) :
    Beside part whole (Change.after operation.perform simulator)
      (Change.after operation.perform twin) := by
  cases operation with
  | step =>
      simp only [Operation.perform, after_map]
      exact beside.step
  | setElement element value =>
      simp only [Operation.perform, after_map]
      exact beside.setElement element value
  | _ => contradiction

theorem perform_new {operation : Operation} (others : operation.isFor part whole = false) :
    Beside part whole simulator (Change.after operation.perform twin) := by
  cases operation with
  | setElement element value =>
      have beyond : part.size ≤ element := by
        by_contra inside
        simp [Operation.isFor, Nat.lt_of_not_le inside] at others
      simp only [Operation.perform, after_map]
      exact beside.setElement_new beyond value
  | _ => contradiction

theorem run {operations : List Operation} (drive : ∀ operation ∈ operations, operation.drives) :
    Beside part whole (simulator.after (operations.filter (·.isFor part whole)))
      (twin.after operations) := by
  induction operations generalizing simulator twin with
  | nil => exact beside
  | cons operation operations ih =>
      obtain ⟨drives, rest⟩ := List.forall_mem_cons.mp drive
      rw [List.filter_cons]
      split
      next => exact ih (beside.perform drives) rest
      next others => exact ih (beside.perform_new (by simpa using others)) rest

end Beside

end Simulator

namespace Circuit

/-- Whether the plans of a circuit and of one that more was added to say the same of the elements
that were there before. -/
structure PlannedAlike (part : Circuit) (plan : Plan) (prepared : Circuit) (other : Plan)
    (otherPrepared : Circuit) : Prop where
  direction : ∀ pin < part.size, otherPrepared.direction pin = prepared.direction pin
  slot : ∀ element < part.size, other.slot element = plan.slot element
  strategy : ∀ element slot, plan.slot element = some slot → ∃ strategy,
    strategy.element = element ∧ plan.strategies[slot]? = some strategy ∧
      other.strategies[slot]? = some strategy
  isEvaluable : ∀ element < part.size, other.isEvaluable element = plan.isEvaluable element
  order : other.elementOrder.filter (· < part.size) = plan.elementOrder

theorem Annexed.plannedAlike (annexed : part.Annexed whole) (clock : Clock) :
    part.PlannedAlike (part.prepared.planOf clock) part.prepared (whole.prepared.planOf clock)
      whole.prepared := by
  have planned := annexed.planned clock
  have indexed := indexed_planOf part.prepared clock
  have wholeIndexed := indexed_planOf whole.prepared clock
  constructor
  case direction => exact fun pin inside => annexed.direction_prepared inside
  case slot => exact planned.slot
  case strategy => exact fun element slot placed => planned.strategy indexed placed
  case isEvaluable => exact fun element inside => planned.isEvaluable indexed wholeIndexed inside
  case order => exact planned.elementOrder indexed wholeIndexed

theorem annexed_afterCalls (name : String) {calls more : List Call}
    (building : ∀ call ∈ calls ++ more, call.isBuilding)
    (built : part = (empty name).afterCalls calls) (valid : part.validate = .ok ())
    (apart : ∀ call ∈ more, ∀ id ∈ call.targets, part.size ≤ id) :
    part.Annexed (part.afterCalls more) := by
  have first : ∀ call ∈ calls, call.isBuilding := fun call member =>
    building call (List.mem_append_left _ member)
  have rest : ∀ call ∈ more, call.isBuilding := fun call member =>
    building call (List.mem_append_right _ member)
  have whole : part.afterCalls more = (empty name).afterCalls (calls ++ more) := by
    rw [built]
    exact List.foldl_append.symm
  have sound : part.Sound Rules.any := built ▸ Build.sound_afterBuilding name first
  constructor
  case toEnlarges => exact enlarges_afterCalls sound rest apart
  case sound => exact sound
  case wholeSound => exact whole ▸ Build.sound_afterBuilding name building
  case wired => exact built ▸ wired_afterCalls name _
  case wholeWired => exact whole ▸ wired_afterCalls name _
  case valid => exact valid

/-- Whatever is added to a valid circuit and connected to nothing in it, the plan says the same of
the elements that were there before. In every run of cycles and writes these have the same cells,
and the changes of their tags are the same but for the blocks that they name, which are those that
the signals have now. -/
theorem undisturbed_afterCalls (name : String) {calls more : List Call}
    (building : ∀ call ∈ calls ++ more, call.isBuilding)
    (built : part = (empty name).afterCalls calls) (enlarged : whole = part.afterCalls more)
    (valid : part.validate = .ok ())
    (apart : ∀ call ∈ more, ∀ id ∈ call.targets, part.size ≤ id)
    (nonzero : settings.resolution ≠ 0) :
    (∃ plan prepared other otherPrepared,
      part.compile settings.resolution = .ok (plan, prepared) ∧
      whole.compile settings.resolution = .ok (other, otherPrepared) ∧
      part.PlannedAlike plan prepared other otherPrepared) ∧
    ∀ operations : List Operation, (∀ operation ∈ operations, operation.drives) →
      Simulator.Undisturbed part whole
        ((Simulator.new part settings).after (operations.filter (·.isFor part whole)))
        ((Simulator.new whole settings).after operations) := by
  have annexed : part.Annexed whole :=
    enlarged ▸ annexed_afterCalls name building built valid apart
  exact ⟨⟨_, _, _, _, part.compile_ok nonzero, whole.compile_ok nonzero, annexed.plannedAlike _⟩,
    fun operations drive => ((Simulator.beside_new annexed nonzero).run drive).undisturbed⟩

def lit : List Call :=
  [.addTag "button" .true, .addTag "lamp" .unknown, .addProject "hall", .addContext 3 "wall",
    .addSignal 4 "button" (some 1), .addSignal 4 "lamp" (some 2), .addSignal 4 "switch" none,
    .addGate 4 .and "follow", .addWire 4 6 14 false false, .addWire 4 12 15 false false,
    .addWire 4 17 8 false false]

def belled : List Call :=
  [.addTag "bell" .false, .addContext 3 "door", .addSignal 23 "bell" (some 22),
    .addSignal 23 "knob" none, .addWire 23 28 24 false false, .setBlock 10 ⟨"LAMP", 7⟩]

theorem belled_undisturbed : (∀ call ∈ lit ++ belled, call.isBuilding) ∧
    ∃ part whole, part = (empty "house").afterCalls lit ∧ whole = part.afterCalls belled ∧
      part.validate = .ok () ∧ (∀ call ∈ belled, ∀ id ∈ call.targets, part.size ≤ id) ∧
      Settings.default.resolution ≠ 0 ∧
      (∃ plan prepared other otherPrepared,
        part.compile Settings.default.resolution = .ok (plan, prepared) ∧
        whole.compile Settings.default.resolution = .ok (other, otherPrepared) ∧
        part.PlannedAlike plan prepared other otherPrepared) ∧
      ∀ operations : List Operation, (∀ operation ∈ operations, operation.drives) →
        Simulator.Undisturbed part whole
          ((Simulator.new part .default).after (operations.filter (·.isFor part whole)))
          ((Simulator.new whole .default).after operations) := by
  have building : ∀ call ∈ lit ++ belled, call.isBuilding := by decide
  have valid : ((empty "house").afterCalls lit).validate = .ok () := by decide +kernel
  have apart : ∀ call ∈ belled, ∀ id ∈ call.targets,
      ((empty "house").afterCalls lit).size ≤ id := by decide +kernel
  have nonzero : Settings.default.resolution ≠ 0 := by decide
  exact ⟨building, _, _, rfl, rfl, valid, apart, nonzero,
    undisturbed_afterCalls "house" building rfl rfl valid apart nonzero⟩

/-- Binding counts as a connection: a signal that is bound for the first time gives up its slot. -/
example :
    let part := (empty "plant").afterCalls
      [.addProject "shed", .addContext 1 "bench", .addSignal 2 "glow" none]
    let whole := part.afterCalls [.addTag "lamp" .true, .bindTag 5 6]
    (part.prepared.planOf (.new 10)).slot 5 = some 0 ∧
      (whole.prepared.planOf (.new 10)).slot 5 = none := by
  decide +kernel

def glowing : List Call :=
  [.addTag "lamp" .unknown, .addProject "shed", .addContext 2 "bench", .addSignal 3 "glow" (some 1)]

def labelled : List Call :=
  [.setBlock 6 ⟨"LAMP", 4⟩]

/-- A block that a signal is given later is named by its changes. -/
theorem labelled_told : (∀ call ∈ glowing ++ labelled, call.isBuilding) ∧
    ∃ part whole, part = (empty "plant").afterCalls glowing ∧ whole = part.afterCalls labelled ∧
      part.validate = .ok () ∧ (∀ call ∈ labelled, ∀ id ∈ call.targets, part.size ≤ id) ∧
      Settings.default.resolution ≠ 0 ∧ ∃ changes made twinChanges twinMade,
        Simulation.step (.new part .default) = .ok changes made ∧
        Simulation.step (.new whole .default) = .ok twinChanges twinMade ∧
        twinChanges.filter (·.tag < part.size) ≠ changes := by
  have building : ∀ call ∈ glowing ++ labelled, call.isBuilding := by decide
  have valid : ((empty "plant").afterCalls glowing).validate = .ok () := by decide +kernel
  have apart : ∀ call ∈ labelled, ∀ id ∈ call.targets,
      ((empty "plant").afterCalls glowing).size ≤ id := by decide
  have nonzero : Settings.default.resolution ≠ 0 := by decide
  have stepped : ∀ circuit : Circuit, ∃ made, Simulation.step (.new circuit .default) = .ok
      ((circuit.prepared.planOf (.new Settings.default.resolution)).evaluate.changes []) made := by
    intro circuit
    have compiled : Simulation.compile (.new circuit .default) = .ok _ _ :=
      Simulation.compile_fresh rfl (circuit.compile_ok nonzero)
    exact ⟨_, Simulation.step_ok compiled⟩
  have differs : ((((empty "plant").afterCalls (glowing ++ labelled)).prepared.planOf
      (.new Settings.default.resolution)).evaluate.changes []).filter
        (·.tag < ((empty "plant").afterCalls glowing).size) ≠
      (((empty "plant").afterCalls glowing).prepared.planOf
        (.new Settings.default.resolution)).evaluate.changes [] := by
    decide +kernel
  have enlarged : (empty "plant").afterCalls (glowing ++ labelled) =
      ((empty "plant").afterCalls glowing).afterCalls labelled := List.foldl_append
  generalize (empty "plant").afterCalls (glowing ++ labelled) = whole at enlarged differs
  refine ⟨building, _, whole, rfl, enlarged, valid, apart, nonzero, ?_⟩
  obtain ⟨made, first⟩ := stepped ((empty "plant").afterCalls glowing)
  obtain ⟨twinMade, second⟩ := stepped whole
  exact ⟨_, made, _, twinMade, first, second, differs⟩

end Circuit

end RelayLogic
