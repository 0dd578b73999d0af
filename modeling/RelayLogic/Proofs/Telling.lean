import RelayLogic.Ticker
import RelayLogic.Proofs.Showing

/-!
The stream of changes that a simulator tells. Whatever is done between two cycles, a cycle tells of
a signal exactly when its tag has not the value that the cycle before left, so that whoever takes
note of all changes knows the value of every tag with signals.
-/

namespace RelayLogic

def StateChange.note (known : ElementId → Option Tri) (change : StateChange) :
    ElementId → Option Tri :=
  Function.update known change.signal (some change.value)

def replay (changes : List StateChange) : ElementId → Option Tri :=
  changes.foldl StateChange.note fun _ => none

theorem foldl_note {value : Option Tri} {signal : ElementId} {changes : List StateChange}
    {known : ElementId → Option Tri}
    (same : ∀ change ∈ changes, change.signal = signal → some change.value = value)
    (told : (∃ change ∈ changes, change.signal = signal) ∨ known signal = value) :
    changes.foldl StateChange.note known signal = value := by
  induction changes generalizing known with
  | nil => simpa using told
  | cons change changes ih =>
      obtain ⟨first, rest⟩ := List.forall_mem_cons.mp same
      refine ih rest ?_
      by_cases isFirst : change.signal = signal
      · subst isFirst
        exact Or.inr ((Function.update_self ..).trans (first rfl))
      · rcases told with ⟨other, member, isOther⟩ | already
        · rcases List.mem_cons.mp member with rfl | later
          · exact absurd isOther isFirst
          · exact Or.inl ⟨other, later, isOther⟩
        · exact Or.inr ((Function.update_of_ne (Ne.symm isFirst) ..).trans already)

namespace Plan

theorem Tells.replayed {circuit : Circuit} {before : Option Plan} {plan : Plan}
    {told changes : List StateChange} (tells : Tells circuit before plan changes)
    {signal tag : ElementId} (isTag : circuit.IsTag tag) (tagged : circuit.tagOf signal = some tag)
    (knew : ∀ earlier ∈ before, replay told signal = earlier.value tag) :
    replay (told ++ changes) signal = plan.value tag := by
  rw [replay, List.foldl_append]
  refine foldl_note (fun change member same => ?_) ?_
  · obtain ⟨changeTagged, value, _⟩ := tells.current change member
    rw [same, tagged] at changeTagged
    rw [← value, Option.some.inj changeTagged]
  · by_cases news : ∀ earlier ∈ before, earlier.value tag ≠ plan.value tag
    · exact Or.inl ((tells.mentions signal).mpr ⟨tag, isTag, tagged, news⟩)
    · simp only [not_forall, not_not] at news
      obtain ⟨earlier, isEarlier, same⟩ := news
      exact Or.inr ((knew earlier isEarlier).trans same)

end Plan

namespace Operation

def cycles : Operation → Bool
  | step => true
  | run cycles => cycles != 0
  | _ => false

def shown (operations : List Operation) : List Operation :=
  operations.rdropWhile fun operation => !(operation.cycles || operation.forgets)

end Operation

def Answer.told : Except Error Answer → List StateChange
  | .ok (.changes news) => news
  | _ => []

theorem Simulation.setElement_error {simulator made : Simulator} {plan : Plan} {error : Error}
    (compiled : compile simulator = .ok plan made) {element : ElementId} {value : Tri}
    (failed : plan.setValue element value = .error error) :
    setElement element value simulator = .error error made := by
  simp only [setElement, bind, EStateM.bind, compiled, failed]
  rfl

theorem Ticking.tick_ok {simulator made : Simulator} {changes : List StateChange}
    (stepped : Simulation.step simulator = .ok changes made) (running : Bool) :
    tick ⟨simulator, running⟩ = .ok ⟨made.cycle, changes⟩ ⟨made, running⟩ := by
  simp only [tick, bind, EStateM.bind, simulate, stepped]
  rfl

namespace Operation

variable {operation : Operation} {simulator made : Simulator}

theorem answer_of_ok {answer : Answer} (done : operation.perform simulator = .ok answer made) :
    operation.answer simulator = .ok answer := by
  rw [Operation.answer, done]

theorem told_of_view {action : Simulation α} {view : α → Answer}
    (performs : operation.perform = view <$> action)
    (quiet : ∀ answer, Answer.told (.ok (view answer)) = []) :
    Answer.told (operation.answer simulator) = [] := by
  rw [Operation.answer, performs]
  cases ran : action simulator with
  | ok answer made =>
      rw [Simulation.map_ok ran]
      exact quiet answer
  | error error made =>
      rw [Simulation.map_error ran]
      rfl

theorem told_idle (idle : operation.cycles = false) :
    Answer.told (operation.answer simulator) = [] := by
  cases operation with
  | step => contradiction
  | run cycles =>
      obtain rfl : cycles = 0 := by simpa [Operation.cycles] using idle
      rfl
  | _ => exact told_of_view rfl fun _ => rfl

end Operation

namespace Simulator

def told (simulator : Simulator) (operations : List Operation) : List StateChange :=
  (simulator.answers operations).flatMap Answer.told

/-- The plan as the latest cycle left it, if there was one since the plan was made. -/
def lastPlan (simulator : Simulator) (operations : List Operation) : Option Plan :=
  if (Operation.shown operations).getLast?.any Operation.cycles then
    (simulator.after (Operation.shown operations)).plan
  else none

theorem told_concat (simulator : Simulator) (operations : List Operation) (operation : Operation) :
    simulator.told (operations ++ [operation]) =
      simulator.told operations ++ Answer.told (operation.answer (simulator.after operations)) := by
  simp [told, answers_append, answers]

theorem lastPlan_concat (simulator : Simulator) (operations : List Operation)
    (operation : Operation) : simulator.lastPlan (operations ++ [operation]) =
      if operation.cycles then (simulator.after (operations ++ [operation])).plan
      else if operation.forgets then none
      else simulator.lastPlan operations := by
  by_cases shows : operation.cycles || operation.forgets
  · have all : Operation.shown (operations ++ [operation]) = operations ++ [operation] :=
      List.rdropWhile_concat_neg _ _ _ (by simp [shows])
    cases cycles : operation.cycles <;> simp_all [lastPlan]
  · have less : Operation.shown (operations ++ [operation]) = Operation.shown operations :=
      List.rdropWhile_concat_pos _ _ _ (by simp [shows])
    simp only [Bool.or_eq_true, not_or, Bool.not_eq_true] at shows
    simp [lastPlan, less, shows]

/-- What holds between cycles of a simulator that told some changes. -/
structure Telling (base : Circuit) (settings : Settings) (last : Option Plan)
    (told : List StateChange) (simulator : Simulator) : Prop where
  simulates : Simulates base settings simulator
  shows : ∀ plan ∈ simulator.plan, plan.Shows base
  showed : ∀ plan ∈ last, plan.Shows base
  planned : simulator.plan = none → last = none
  reported : simulator.reported = Plan.lastObserved last
  replayed : ∀ plan ∈ last, ∀ signal tag, base.IsTag tag → base.tagOf signal = some tag →
    replay told signal = plan.value tag

theorem telling_new {base : Circuit} (every : base.Every Element.Settled) (settings : Settings)
    (told : List StateChange) : Telling base settings none told (new base settings) where
  simulates := simulates_new every settings
  shows := by simp [new]
  showed := by simp
  planned _ := rfl
  reported := rfl
  replayed := by simp

namespace Telling

variable {base : Circuit} {settings : Settings} {last : Option Plan} {told : List StateChange}
  {simulator : Simulator} {plan : Plan}

theorem compile (telling : Telling base settings last told simulator)
    (nonzero : settings.resolution ≠ 0) : ∃ plan made, Simulation.compile simulator = .ok plan made ∧
      made.plan = some plan ∧ Telling base settings last told made := by
  cases planned : simulator.plan with
  | some plan => exact ⟨plan, simulator, Simulation.compile_planned planned, planned, telling⟩
  | none =>
      obtain ⟨⟨same, inferred⟩, _, showed, unplanned, _, replayed⟩ := telling
      have compiled : simulator.circuit.compile simulator.settings.resolution =
          .ok (simulator.circuit.prepared.planOf (.new simulator.settings.resolution),
            simulator.circuit.prepared) := by
        rw [Circuit.compile, if_neg (same ▸ nonzero)]
      have shows := (Plan.shows_planOf simulator.circuit.prepared
        (.new simulator.settings.resolution)).cleared inferred.prepared
      obtain rfl := unplanned planned
      refine ⟨_, _, Simulation.compile_fresh planned compiled, rfl, ⟨same, inferred.prepared⟩, ?_,
        showed, fun _ => rfl, rfl, replayed⟩
      rintro _ ⟨⟩
      exact shows

theorem write (telling : Telling base settings last told simulator) (shows : plan.Shows base) :
    Telling base settings last told { simulator with plan := some plan } := by
  obtain ⟨⟨same, inferred⟩, _, showed, _, reported, replayed⟩ := telling
  refine ⟨⟨same, inferred⟩, ?_, showed, fun absent => ?_, reported, replayed⟩
  · rintro _ ⟨⟩
    exact shows
  · contradiction

theorem keeps_compile (nonzero : settings.resolution ≠ 0) :
    Change.Keeps (Telling base settings last told) Simulation.compile := by
  intro simulator telling
  obtain ⟨plan, made, compiled, _, next⟩ := telling.compile nonzero
  rwa [Change.after, compiled]

theorem keeps_setElement (nonzero : settings.resolution ≠ 0) (element : ElementId) (value : Tri) :
    Change.Keeps (Telling base settings last told) (Simulation.setElement element value) := by
  intro simulator telling
  obtain ⟨plan, made, compiled, planned, next⟩ := telling.compile nonzero
  cases set : plan.setValue element value with
  | ok written =>
      rw [Change.after, Simulation.setElement_ok compiled set]
      exact next.write ((next.shows plan planned).setValue set)
  | error error =>
      rw [Change.after, Simulation.setElement_error compiled set]
      exact next

theorem keeps_setTag (nonzero : settings.resolution ≠ 0) (name : String) (value : Tri) :
    Change.Keeps (Telling base settings last told) (Simulation.setTag name value) := by
  intro simulator telling
  cases found : simulator.circuit.findTag name with
  | some tag =>
      rw [Change.after, Simulation.setTag_found found]
      exact keeps_setElement nonzero tag value simulator telling
  | none =>
      rw [Change.after, Simulation.setTag_missing found]
      exact telling

theorem step (telling : Telling base settings last told simulator)
    (nonzero : settings.resolution ≠ 0) :
    ∃ plan changes made, Simulation.step simulator = .ok changes made ∧ made.plan = some plan ∧
      Plan.Tells base last plan changes ∧ Telling base settings (some plan) (told ++ changes) made := by
  obtain ⟨plan, made, compiled, planned, next⟩ := telling.compile nonzero
  have shows := (next.shows plan planned).evaluate
  have tells := shows.tells next.showed
  rw [← next.reported] at tells
  refine ⟨plan.evaluate, _, _, Simulation.step_ok compiled, rfl, tells, ?_⟩
  obtain ⟨⟨same, inferred⟩, _, _, _, _, replayed⟩ := next
  constructor
  case simulates => exact ⟨same, inferred⟩
  case shows => simpa using shows
  case showed => simpa using shows
  case planned => simp
  case reported => rfl
  case replayed =>
    rintro _ ⟨⟩ signal tag isTag tagged
    exact tells.replayed isTag tagged fun earlier isEarlier =>
      replayed earlier isEarlier signal tag isTag tagged

theorem run (telling : Telling base settings last told simulator)
    (nonzero : settings.resolution ≠ 0) (more : Nat) :
    ∃ plan changes made, Simulation.run (more + 1) simulator = .ok changes made ∧
      made.plan = some plan ∧ Telling base settings (some plan) (told ++ changes) made := by
  induction more generalizing last told simulator with
  | zero =>
      obtain ⟨plan, changes, made, stepped, planned, _, next⟩ := telling.step nonzero
      refine ⟨plan, changes ++ [], made, ?_, planned, by rwa [List.append_nil]⟩
      simp only [Simulation.run, bind, EStateM.bind, stepped]
      rfl
  | succ more ih =>
      obtain ⟨_, changes, made, stepped, _, _, next⟩ := telling.step nonzero
      obtain ⟨plan, rest, final, ran, planned, last⟩ := ih next
      refine ⟨plan, changes ++ rest, final, ?_, planned, by rwa [← List.append_assoc]⟩
      rw [Simulation.run]
      simp only [bind, EStateM.bind, stepped, ran]
      rfl

theorem perform_cycles (telling : Telling base settings last told simulator)
    (nonzero : settings.resolution ≠ 0) {operation : Operation} (isCycle : operation.cycles) :
    Telling base settings (Change.after operation.perform simulator).plan
      (told ++ Answer.told (operation.answer simulator))
      (Change.after operation.perform simulator) := by
  have onward : ∀ plan changes made, operation.perform simulator = .ok (.changes changes) made →
      made.plan = some plan → Telling base settings (some plan) (told ++ changes) made →
        Telling base settings (Change.after operation.perform simulator).plan
          (told ++ Answer.told (operation.answer simulator))
          (Change.after operation.perform simulator) := by
    intro plan changes made done planned next
    rw [Operation.answer_of_ok done, (Operation.of_perform_ok done).2, planned]
    exact next
  cases operation with
  | step =>
      obtain ⟨plan, changes, made, stepped, planned, _, next⟩ := telling.step nonzero
      exact onward plan changes made (Simulation.map_ok stepped _) planned next
  | run cycles =>
      cases cycles with
      | zero => contradiction
      | succ more =>
          obtain ⟨plan, changes, made, ran, planned, next⟩ := telling.run nonzero more
          exact onward plan changes made (Simulation.map_ok ran _) planned next
  | _ => contradiction

theorem perform_idle (telling : Telling base settings last told simulator)
    (nonzero : settings.resolution ≠ 0) {operation : Operation} (idle : operation.cycles = false)
    (keeps : operation.forgets = false) :
    Telling base settings last (told ++ Answer.told (operation.answer simulator))
      (Change.after operation.perform simulator) := by
  rw [Operation.told_idle idle, List.append_nil]
  cases operation with
  | compile => exact ((keeps_compile nonzero).map _) _ telling
  | run cycles =>
      obtain rfl : cycles = 0 := by simpa [Operation.cycles] using idle
      exact telling
  | setTag name value => exact ((keeps_setTag nonzero name value).map _) _ telling
  | setElement element value => exact ((keeps_setElement nonzero element value).map _) _ telling
  | _ => contradiction

end Telling

theorem telling_after {base : Circuit} (every : base.Every Element.Settled) {settings : Settings}
    (nonzero : settings.resolution ≠ 0) (operations : List Operation) :
    let start := new base settings
    Telling (base.afterCalls (operations.flatMap Operation.calls)) settings
      (start.lastPlan operations) (start.told operations) (start.after operations) := by
  intro start
  induction operations using List.reverseRecOn with
  | nil => exact telling_new every settings []
  | append_singleton operations operation ih =>
      have settled := Circuit.settled_stable.afterCalls every (operations.flatMap Operation.calls)
      have next : start.after (operations ++ [operation]) =
          Change.after operation.perform (start.after operations) := after_append _ _ _
      rw [Operation.afterCalls_concat, lastPlan_concat, told_concat, next]
      by_cases forgets : operation.forgets
      · have idle : operation.cycles = false := by cases operation <;> first | rfl | contradiction
        rw [ih.simulates.forgets forgets, idle, forgets]
        exact telling_new (Circuit.settled_stable.afterCalls settled operation.calls) settings _
      · have keeps : operation.forgets = false := by simpa using forgets
        rw [Operation.calls_eq_nil keeps, keeps]
        cases cycles : operation.cycles with
        | true => exact ih.perform_cycles nonzero cycles
        | false => exact ih.perform_idle nonzero cycles keeps

/--
After any operations on a simulator of a built circuit, edits and resets among them, the next cycle
tells exactly the tags that it leaves with another value than the cycle before, or all tags if the
circuit was compiled since. Whoever takes note of all changes knows the values that the latest cycle
left. Ticks are such cycles.
-/
theorem step_tells (name : String) (calls : List Call) {settings : Settings}
    (nonzero : settings.resolution ≠ 0) (operations : List Operation) :
    let start := new ((Circuit.empty name).afterCalls calls) settings
    let circuit := (Circuit.empty name).afterCalls (calls ++ operations.flatMap Operation.calls)
    (∃ plan changes,
        Operation.step.answer (start.after operations) = .ok (.changes changes) ∧
          (start.after (operations ++ [.step])).plan = some plan ∧
          Plan.Tells circuit (start.lastPlan operations) plan changes ∧
          ∀ running, Ticking.tick ⟨start.after operations, running⟩ =
            .ok ⟨plan.clock.cycle, changes⟩ ⟨start.after (operations ++ [.step]), running⟩) ∧
      ∀ plan ∈ start.lastPlan operations, ∀ signal tag, circuit.IsTag tag →
        circuit.tagOf signal = some tag → ∃ value, plan.value tag = some value ∧
          replay (start.told operations) signal = some value := by
  intro start circuit
  have every := Circuit.settled_stable.afterCalls (Circuit.settled_empty name) calls
  have joined : ((Circuit.empty name).afterCalls calls).afterCalls
      (operations.flatMap Operation.calls) = circuit := List.foldl_append.symm
  have telling := telling_after every nonzero operations
  rw [joined] at telling
  constructor
  · obtain ⟨plan, changes, made, stepped, planned, tells, _⟩ := telling.step nonzero
    have done : Operation.step.perform (start.after operations) = .ok (.changes changes) made :=
      Simulation.map_ok stepped _
    have next : start.after (operations ++ [.step]) = made :=
      (after_append _ _ _).trans (Operation.of_perform_ok done).2
    rw [next]
    refine ⟨plan, changes, Operation.answer_of_ok done, planned, tells, fun running => ?_⟩
    have cycle : made.cycle = plan.clock.cycle := by simp only [Simulator.cycle, planned]
    rw [← cycle]
    exact Ticking.tick_ok stepped running
  · intro plan isLast signal tag isTag tagged
    obtain ⟨value, valued⟩ := (telling.showed plan isLast).valued isTag
    exact ⟨value, valued, valued ▸ telling.replayed plan isLast signal tag isTag tagged⟩

def doubled : List Call :=
  [.addProject "hall", .addContext 1 "door", .addTag "lamp" .false, .addSignal 2 "east" (some 3),
    .addSignal 2 "west" (some 3)]

theorem doubled_tells : Settings.default.resolution ≠ 0 ∧
    ∃ plan changes, Operation.step.answer ((new ((Circuit.empty "house").afterCalls doubled)
        .default).after [.step, .setTag "lamp" .true]) = .ok (.changes changes) ∧
      Plan.Tells ((Circuit.empty "house").afterCalls doubled)
        ((new ((Circuit.empty "house").afterCalls doubled) .default).lastPlan
          [.step, .setTag "lamp" .true]) plan changes ∧
        changes.map (fun change => (change.signal, change.value)) = [(6, .true), (9, .true)] := by
  have nonzero : Settings.default.resolution ≠ 0 := by decide
  obtain ⟨⟨plan, changes, answered, _, tells, _⟩, _⟩ :=
    step_tells "house" doubled nonzero [.step, .setTag "lamp" .true]
  have told : (Answer.told (Operation.step.answer ((new ((Circuit.empty "house").afterCalls doubled)
      .default).after [.step, .setTag "lamp" .true]))).map (fun change =>
        (change.signal, change.value)) = [(6, .true), (9, .true)] := by decide +kernel
  rw [answered] at told
  exact ⟨nonzero, plan, changes, answered, tells, told⟩

end Simulator

end RelayLogic
