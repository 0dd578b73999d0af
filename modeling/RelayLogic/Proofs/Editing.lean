import RelayLogic.Simulator
import RelayLogic.Proofs.Clearing
import Mathlib.Data.List.DropRight

/-!
Edits between cycles. Whatever a simulator did before its circuit was last reset or built on, it
goes on like a new simulator of the circuit that the building calls alone lead to.
-/

namespace RelayLogic

inductive Operation
  | compile
  | step
  | run (cycles : Nat)
  | setTag (name : String) (value : Tri)
  | setElement (element : ElementId) (value : Tri)
  | reset
  | edit (calls : List Call)
  deriving DecidableEq, Repr

inductive Answer
  | plan (plan : Plan)
  | changes (changes : List StateChange)
  | built (results : List (Except Error (Option ElementId)))
  | done

def Call.attempt (call : Call) : Build (Except Error (Option ElementId)) := fun circuit =>
  match call.build circuit with
  | .ok answer changed => .ok (.ok answer) changed
  | .error error changed => .ok (.error error) changed

theorem Call.attempt_eq (call : Call) (circuit : Circuit) :
    ∃ result, call.attempt circuit = .ok result (Change.after call.build circuit) := by
  simp only [attempt, Change.after]
  cases call.build circuit with
  | ok answer changed => exact ⟨_, rfl⟩
  | error error changed => exact ⟨_, rfl⟩

theorem Call.mapM_attempt (calls : List Call) (circuit : Circuit) :
    ∃ results, calls.mapM attempt circuit = .ok results (circuit.afterCalls calls) := by
  induction calls generalizing circuit with
  | nil => exact ⟨[], rfl⟩
  | cons call calls ih =>
      obtain ⟨result, first⟩ := call.attempt_eq circuit
      obtain ⟨results, rest⟩ := ih (Change.after call.build circuit)
      refine ⟨result :: results, ?_⟩
      rw [List.mapM_cons]
      simp only [bind, EStateM.bind, first, rest]
      rfl

namespace Operation

def perform : Operation → Simulation Answer
  | compile => .plan <$> Simulation.compile
  | step => .changes <$> Simulation.step
  | run cycles => .changes <$> Simulation.run cycles
  | setTag name value => (fun _ => .done) <$> Simulation.setTag name value
  | setElement element value => (fun _ => .done) <$> Simulation.setElement element value
  | reset => (fun _ => .done) <$> (modify Simulator.reset : Simulation PUnit)
  | edit calls => .built <$> Simulation.edit (calls.mapM Call.attempt)

def calls : Operation → List Call
  | edit calls => calls
  | _ => []

def forgets : Operation → Bool
  | reset | edit _ => true
  | _ => false

def answer (operation : Operation) (simulator : Simulator) : Except Error Answer :=
  match operation.perform simulator with
  | .ok answer _ => .ok answer
  | .error error _ => .error error

/-- The operations after the last one that makes the simulator forget its plan. -/
def recent (operations : List Operation) : List Operation :=
  operations.rtakeWhile fun operation => !operation.forgets

def past (operations : List Operation) : List Operation :=
  operations.rdropWhile fun operation => !operation.forgets

theorem past_append_recent (operations : List Operation) :
    past operations ++ recent operations = operations :=
  List.rdropWhile_append_rtakeWhile

theorem recent_past (operations : List Operation) : recent (past operations) = [] :=
  List.rtakeWhile_eq_nil_iff.mpr fun some => List.rdropWhile_last_not _ _ some

theorem calls_eq_nil {operation : Operation} (keeps : operation.forgets = false) :
    operation.calls = [] := by
  cases operation with
  | edit calls => contradiction
  | _ => rfl

theorem calls_past (operations : List Operation) :
    (past operations).flatMap calls = operations.flatMap calls := by
  have none : (recent operations).flatMap calls = [] := by
    rw [List.flatMap_eq_nil_iff]
    intro operation member
    have keeps := List.mem_rtakeWhile_imp member
    exact calls_eq_nil (by simpa using keeps)
  conv_rhs => rw [← past_append_recent operations, List.flatMap_append, none, List.append_nil]

theorem afterCalls_concat (base : Circuit) (operations : List Operation) (operation : Operation) :
    base.afterCalls ((operations ++ [operation]).flatMap calls) =
      (base.afterCalls (operations.flatMap calls)).afterCalls operation.calls := by
  rw [List.flatMap_append, List.flatMap_singleton]
  exact List.foldl_append

end Operation

namespace Simulator

def after (simulator : Simulator) (operations : List Operation) : Simulator :=
  operations.foldl (fun simulator operation => Change.after operation.perform simulator) simulator

def answers (simulator : Simulator) : List Operation → List (Except Error Answer)
  | [] => []
  | operation :: rest =>
    operation.answer simulator :: (Change.after operation.perform simulator).answers rest

variable {simulator : Simulator} {settings : Settings} {base : Circuit}

theorem after_append (simulator : Simulator) (before later : List Operation) :
    simulator.after (before ++ later) = (simulator.after before).after later :=
  List.foldl_append

theorem answers_append (before later : List Operation) (simulator : Simulator) :
    simulator.answers (before ++ later) =
      simulator.answers before ++ (simulator.after before).answers later := by
  induction before generalizing simulator with
  | nil => rfl
  | cons operation before ih =>
      simp only [List.cons_append, answers, ih]
      rfl

/-- A simulator whose circuit, when cleared, is a given one. -/
structure Simulates (base : Circuit) (settings : Settings) (simulator : Simulator) : Prop where
  settings : simulator.settings = settings
  inferred : Circuit.Inferred base simulator.circuit

theorem simulates_new (every : base.Every Element.Settled) (settings : Settings) :
    Simulates base settings (new base settings) :=
  ⟨rfl, Circuit.clearInferred_of_settled every,
    fun id element held => (every id element held).anchored⟩

theorem Simulates.reset (simulates : Simulates base settings simulator) :
    simulator.reset = new base settings := by
  simp only [Simulator.reset, new, simulates.settings, simulates.inferred.cleared]

end Simulator

namespace Simulation

open Change

variable {settings : Settings} {base : Circuit} {simulator : Simulator} {plan : Plan}

theorem compile_planned (planned : simulator.plan = some plan) :
    compile simulator = .ok plan simulator := by
  have seen : (get : Simulation Simulator) simulator = .ok simulator simulator := rfl
  simp only [compile, bind, EStateM.bind, seen, planned]
  rfl

theorem compile_fresh (unplanned : simulator.plan = none) {prepared : Circuit}
    (compiled : simulator.circuit.compile simulator.settings.resolution = .ok (plan, prepared)) :
    compile simulator =
      .ok plan { simulator with circuit := prepared, plan := some plan, reported := [] } := by
  have seen : (get : Simulation Simulator) simulator = .ok simulator simulator := rfl
  simp only [compile, bind, EStateM.bind, seen, unplanned, compiled]
  rfl

theorem keeps_compile : Keeps (Simulator.Simulates base settings) compile := by
  intro simulator simulates
  have seen : (get : Simulation Simulator) simulator = .ok simulator simulator := rfl
  cases planned : simulator.plan with
  | some plan => simpa only [after, compile_planned planned] using simulates
  | none =>
      cases compiled : simulator.circuit.compile simulator.settings.resolution with
      | error error =>
          have failed : compile simulator = .error error simulator := by
            simp only [compile, bind, EStateM.bind, seen, planned, compiled]
            rfl
          simpa only [after, failed] using simulates
      | ok prepared =>
          simp only [after, compile_fresh planned compiled]
          rw [Circuit.prepared_of_compile compiled]
          exact ⟨simulates.settings, simulates.inferred.prepared⟩

theorem keeps_step : Keeps (Simulator.Simulates base settings) step := by
  refine keeps_compile.bind fun _ => keeps_get_bind fun _ => ?_
  exact (keeps_modify fun _ simulates => ⟨simulates.settings, simulates.inferred⟩).bind
    fun _ => keeps_pure _

theorem keeps_run (cycles : Nat) : Keeps (Simulator.Simulates base settings) (run cycles) := by
  induction cycles with
  | zero => exact keeps_pure _
  | succ cycles ih => exact keeps_step.bind fun _ => ih.bind fun _ => keeps_pure _

theorem keeps_setElement (element : ElementId) (value : Tri) :
    Keeps (Simulator.Simulates base settings) (setElement element value) := by
  refine keeps_compile.bind fun plan => ?_
  split
  · exact keeps_modify fun _ simulates => ⟨simulates.settings, simulates.inferred⟩
  · exact keeps_throw _

theorem keeps_setTag (name : String) (value : Tri) :
    Keeps (Simulator.Simulates base settings) (setTag name value) := by
  refine keeps_get_bind fun _ => ?_
  split
  · exact keeps_setElement _ _
  · exact keeps_throw _

end Simulation

namespace Simulator

variable {simulator : Simulator} {settings : Settings} {base : Circuit}

theorem after_edit (simulator : Simulator) (calls : List Call) :
    Change.after (Operation.edit calls).perform simulator =
      { simulator.reset with circuit := simulator.reset.circuit.afterCalls calls } := by
  obtain ⟨results, attempted⟩ := Call.mapM_attempt calls simulator.reset.circuit
  have edited : Simulation.edit (calls.mapM Call.attempt) simulator = .ok results
      { simulator.reset with circuit := simulator.reset.circuit.afterCalls calls } := by
    simp only [Simulation.edit, attempted]
  show Change.after (EStateM.map Answer.built (Simulation.edit (calls.mapM Call.attempt))) _ = _
  simp only [Change.after, EStateM.map, edited]

theorem Simulates.forgets (simulates : Simulates base settings simulator) {operation : Operation}
    (forgets : operation.forgets) :
    Change.after operation.perform simulator =
      new (base.afterCalls operation.calls) settings := by
  cases operation with
  | reset => exact simulates.reset
  | edit calls =>
      rw [after_edit, simulates.reset]
      rfl
  | _ => contradiction

theorem Simulates.perform (simulates : Simulates base settings simulator)
    (every : base.Every Element.Settled) (operation : Operation) :
    Simulates (base.afterCalls operation.calls) settings
      (Change.after operation.perform simulator) := by
  cases operation with
  | compile => exact (Simulation.keeps_compile.map _) _ simulates
  | step => exact (Simulation.keeps_step.map _) _ simulates
  | run cycles => exact ((Simulation.keeps_run cycles).map _) _ simulates
  | setTag name value => exact ((Simulation.keeps_setTag name value).map _) _ simulates
  | setElement element value =>
      exact ((Simulation.keeps_setElement element value).map _) _ simulates
  | reset =>
      rw [simulates.forgets rfl]
      exact simulates_new every settings
  | edit calls =>
      rw [simulates.forgets rfl]
      exact simulates_new (Circuit.settled_stable.afterCalls every calls) settings

theorem after_eq_recent (every : base.Every Element.Settled) (settings : Settings)
    (operations : List Operation) :
    (new base settings).after operations =
        (new (base.afterCalls (operations.flatMap Operation.calls)) settings).after
          (Operation.recent operations) ∧
      Simulates (base.afterCalls (operations.flatMap Operation.calls)) settings
        ((new base settings).after operations) := by
  induction operations using List.reverseRecOn with
  | nil => exact ⟨rfl, simulates_new every settings⟩
  | append_singleton operations operation ih =>
      obtain ⟨same, simulates⟩ := ih
      have settled := Circuit.settled_stable.afterCalls every (operations.flatMap Operation.calls)
      have last : (new base settings).after (operations ++ [operation]) =
          Change.after operation.perform ((new base settings).after operations) :=
        after_append _ _ _
      rw [Operation.afterCalls_concat, last]
      refine ⟨?_, simulates.perform settled operation⟩
      by_cases forgets : operation.forgets
      · have none : Operation.recent (operations ++ [operation]) = [] :=
          List.rtakeWhile_concat_neg _ _ _ (by simp [forgets])
        rw [simulates.forgets forgets, none]
        rfl
      · have idle := Operation.calls_eq_nil (by simpa using forgets)
        have later : Operation.recent (operations ++ [operation]) =
            Operation.recent operations ++ [operation] :=
          List.rtakeWhile_concat_pos _ _ _ (by simpa using forgets)
        rw [later, after_append, idle, same]
        rfl

/--
A simulator of a built circuit is, after any operations, a new simulator of the circuit that the
building calls alone lead to, on which the operations since the last edit or reset are run; these
answer alike. A reset makes it that new simulator, and its circuit has that circuit's netlist.
-/
theorem after_eq_fresh (name : String) (calls : List Call) (settings : Settings)
    (operations : List Operation) :
    let start := new ((Circuit.empty name).afterCalls calls) settings
    let built := (Circuit.empty name).afterCalls (calls ++ operations.flatMap Operation.calls)
    let fresh := new built settings
    start.after operations = fresh.after (Operation.recent operations) ∧
      start.answers operations =
        start.answers (Operation.past operations) ++
          fresh.answers (Operation.recent operations) ∧
      (start.after operations).reset = fresh ∧
      (start.after operations).circuit.encode = built.encode := by
  intro start built fresh
  have every := Circuit.settled_stable.afterCalls (Circuit.settled_empty name) calls
  have joined : ((Circuit.empty name).afterCalls calls).afterCalls
      (operations.flatMap Operation.calls) = built := List.foldl_append.symm
  obtain ⟨same, simulates⟩ := after_eq_recent every settings operations
  rw [joined] at same simulates
  refine ⟨same, ?_, simulates.reset, ?_⟩
  · have answers :=
      answers_append (Operation.past operations) (Operation.recent operations) start
    have edited := (after_eq_recent every settings (Operation.past operations)).1
    rw [Operation.recent_past, Operation.calls_past, joined] at edited
    rw [Operation.past_append_recent] at answers
    rw [answers]
    exact congrArg (start.answers (Operation.past operations) ++ Simulator.answers · _) edited
  · rw [← simulates.inferred.cleared, Circuit.encode_clearInferred]

end Simulator

end RelayLogic
