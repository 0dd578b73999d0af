import RelayLogic.Proofs.Refining

/-!
Strategies in time. A strategy that is computed once in each cycle gives one value for each view of
the cells; in a plan these are the values of its cell. What a timer with one binding gives is told
by the history of the value that it reads, step by step.
-/

namespace RelayLogic

theorem cycleAfter_eq {now count : Nat} (fits : now + count < 2 ^ 64) :
    cycleAfter now count = now + count :=
  Nat.mod_eq_of_lt fits

@[simp] theorem cycleAfter_cycleAfter (now first second : Nat) :
    cycleAfter (cycleAfter now first) second = cycleAfter now (first + second) := by
  simp only [cycleAfter, Nat.mod_add_mod, Nat.add_assoc]

namespace Timing

variable {Timer : Type} (step : Timer → Nat → Tri → Tri × Timer)

def outputs (timer : Timer) (now : Nat) : List Tri → List Tri
  | [] => []
  | enable :: enables =>
    (step timer (cycleAfter now 1) enable).1 ::
      outputs (step timer (cycleAfter now 1) enable).2 (cycleAfter now 1) enables

def after (timer : Timer) (now : Nat) : List Tri → Timer
  | [] => timer
  | enable :: enables => after (step timer (cycleAfter now 1) enable).2 (cycleAfter now 1) enables

variable {step} {timer : Timer} {now : Nat} {enables others : List Tri}

@[simp] theorem length_outputs : (outputs step timer now enables).length = enables.length := by
  induction enables generalizing timer now with
  | nil => rfl
  | cons enable enables ih => simp [outputs, ih]

/-- As long as the counter and a timer's cycles fit into 64 bits, both add up. -/
theorem counted {t width : Nat} {enable : Tri} (held : enables[t]? = some enable)
    (fits : now + enables.length + width < 2 ^ 64) :
    cycleAfter now (t + 1) = now + t + 1 ∧ now + t + 1 + width < 2 ^ 64 := by
  have bound := (List.getElem?_eq_some_iff.mp held).1
  refine ⟨?_, by omega⟩
  rw [cycleAfter_eq (by omega), Nat.add_assoc]

theorem after_concat (enable : Tri) : after step timer now (enables ++ [enable]) =
    (step (after step timer now enables) (cycleAfter now (enables.length + 1)) enable).2 := by
  induction enables generalizing timer now with
  | nil => rfl
  | cons first enables ih =>
      simp only [List.cons_append, after, ih, List.length_cons, cycleAfter_cycleAfter]
      rw [Nat.add_comm 1]

theorem getElem?_outputs (t : Nat) : (outputs step timer now enables)[t]? =
    enables[t]?.map fun enable =>
      (step (after step timer now (enables.take t)) (cycleAfter now (t + 1)) enable).1 := by
  induction enables generalizing timer now t with
  | nil => rfl
  | cons enable enables ih =>
      cases t with
      | zero => rfl
      | succ t =>
          simp only [outputs, List.getElem?_cons_succ, ih, List.take_succ_cons, after,
            cycleAfter_cycleAfter]
          rw [Nat.add_comm 1]

theorem exists_enable {t : Nat} {output : Tri}
    (given : (outputs step timer now enables)[t]? = some output) :
    ∃ enable, enables[t]? = some enable := by
  have bound := (List.getElem?_eq_some_iff.mp given).1
  rw [length_outputs] at bound
  exact ⟨enables[t], List.getElem?_eq_getElem bound⟩

theorem exists_output {t : Nat} {enable : Tri} (held : enables[t]? = some enable) :
    ∃ output, (outputs step timer now enables)[t]? = some output := by
  rw [getElem?_outputs, held]
  exact ⟨_, rfl⟩

theorem after_take_succ {t : Nat} {enable : Tri} (held : enables[t]? = some enable) :
    after step timer now (enables.take (t + 1)) =
      (step (after step timer now (enables.take t)) (cycleAfter now (t + 1)) enable).2 := by
  have bound := (List.getElem?_eq_some_iff.mp held).1
  rw [List.take_add_one, held, Option.toList_some, after_concat, List.length_take,
    Nat.min_eq_left bound.le]

/-- What holds of the timer before the first step, and is kept by every step, holds of it
throughout. A step tells the value of the input and the output. -/
theorem keeps (holds : Nat → Timer → Prop) (start : holds 0 timer)
    (next : ∀ t enable current, enables[t]? = some enable →
      (outputs step timer now enables)[t]? =
          some (step current (cycleAfter now (t + 1)) enable).1 →
        holds t current → holds (t + 1) (step current (cycleAfter now (t + 1)) enable).2)
    {t : Nat} (bound : t ≤ enables.length) : holds t (after step timer now (enables.take t)) := by
  induction t with
  | zero => exact start
  | succ t ih =>
      obtain ⟨enable, held⟩ : ∃ enable, enables[t]? = some enable :=
        ⟨enables[t], List.getElem?_eq_getElem bound⟩
      rw [after_take_succ held]
      refine next t enable _ held ?_ (ih (Nat.le_of_succ_le bound))
      rw [getElem?_outputs, held]
      rfl

theorem getElem?_outputs_congr {t : Nat} (same : ∀ i ≤ t, others[i]? = enables[i]?) :
    (outputs step timer now others)[t]? = (outputs step timer now enables)[t]? := by
  have past : others.take t = enables.take t := by
    apply List.ext_getElem?
    intro i
    rw [List.getElem?_take, List.getElem?_take]
    split
    next before => exact same i before.le
    next => rfl
  rw [getElem?_outputs, getElem?_outputs, same t le_rfl, past]

end Timing

/-- A value that has lasted since the step `first`, and not longer, up to the step `stop`. -/
structure Streak (value : Tri) (values : List Tri) (first stop : Nat) : Prop where
  le : first ≤ stop
  inside : ∀ t < stop, first ≤ t → values[t]? = some value
  before : ∀ t < first, t + 1 = first → values[t]? ≠ some value

namespace Streak

variable {value : Tri} {values : List Tri} {first stop : Nat}

instance : Decidable (Streak value values first stop) :=
  decidable_of_iff (first ≤ stop ∧ (∀ t < stop, first ≤ t → values[t]? = some value) ∧
      ∀ t < first, t + 1 = first → values[t]? ≠ some value)
    ⟨fun ⟨le, inside, before⟩ => ⟨le, inside, before⟩,
      fun ⟨le, inside, before⟩ => ⟨le, inside, before⟩⟩

theorem zero : Streak value values 0 0 :=
  ⟨le_rfl, nofun, nofun⟩

theorem grow (streak : Streak value values first stop) (held : values[stop]? = some value) :
    Streak value values first (stop + 1) := by
  refine ⟨streak.le.trans (Nat.le_succ _), fun t bound since => ?_, streak.before⟩
  rcases Nat.lt_succ_iff_lt_or_eq.mp bound with earlier | rfl
  · exact streak.inside t earlier since
  · exact held

theorem reset (changed : values[stop]? ≠ some value) : Streak value values (stop + 1) (stop + 1) :=
  ⟨le_rfl, fun _ bound since => absurd bound (Nat.not_lt.mpr since), fun _ _ last =>
    Nat.succ_injective last ▸ changed⟩

theorem cut (streak : Streak value values first stop) {t : Nat} (since : first ≤ t)
    (bound : t ≤ stop) : Streak value values first t :=
  ⟨since, fun i before => streak.inside i (before.trans_le bound), streak.before⟩

theorem exists_first (value : Tri) (values : List Tri) (stop : Nat) :
    ∃ first, Streak value values first stop := by
  induction stop with
  | zero => exact ⟨0, .zero⟩
  | succ stop ih =>
      obtain ⟨first, streak⟩ := ih
      by_cases held : values[stop]? = some value
      · exact ⟨first, streak.grow held⟩
      · exact ⟨stop + 1, .reset held⟩

theorem unique (streak : Streak value values first stop) {start : Nat}
    (same : Streak value values start stop) : start = first := by
  -- Of two different starts the step before the later one would have the value and not have it.
  have not_later : ∀ {first start}, Streak value values first stop →
      Streak value values start stop → start ≤ first := by
    intro first start streak same
    by_contra! later
    have le := same.le
    refine same.before (start - 1) (by omega) (by omega) ?_
    exact streak.inside (start - 1) (by omega) (by omega)
  exact (not_later streak same).antisymm (not_later same streak)

end Streak

/-- Outputs that the history of the enable input defines: unknown in the steps in which it is, true
in those of which `shown` holds, and false in all others. -/
structure DefinedBy (enables outputs : List Tri) (shown : Nat → Prop) : Prop where
  length : outputs.length = enables.length
  unknown_iff : ∀ t : Nat, outputs[t]? = some .unknown ↔ enables[t]? = some .unknown
  true_iff : ∀ t : Nat, outputs[t]? = some .true ↔ shown t
  false_iff : ∀ t : Nat, outputs[t]? = some .false ↔
    t < enables.length ∧ enables[t]? ≠ some .unknown ∧ ¬shown t

theorem Timing.definedBy {Timer : Type} {step : Timer → Nat → Tri → Tri × Timer} {timer : Timer}
    {now : Nat} {enables : List Tri} {shown : Nat → Prop} (holds : Nat → Timer → Prop)
    (start : holds 0 timer)
    (each : ∀ t enable current, enables[t]? = some enable → holds t current →
      ((step current (cycleAfter now (t + 1)) enable).1 = .unknown ↔ enable = .unknown) ∧
        ((step current (cycleAfter now (t + 1)) enable).1 = .true ↔ shown t) ∧
          holds (t + 1) (step current (cycleAfter now (t + 1)) enable).2)
    (within : ∀ t, shown t → t < enables.length) :
    DefinedBy enables (outputs step timer now enables) shown := by
  have at_step : ∀ t, ((outputs step timer now enables)[t]? = some .unknown ↔
        enables[t]? = some .unknown) ∧
      ((outputs step timer now enables)[t]? = some .true ↔ shown t) ∧
        ((outputs step timer now enables)[t]? = some .false ↔
          t < enables.length ∧ enables[t]? ≠ some .unknown ∧ ¬shown t) := by
    intro t
    cases held : enables[t]? with
    | none =>
        have beyond := List.getElem?_eq_none_iff.mp held
        have never : ¬shown t := fun now => absurd (within t now) (Nat.not_lt.mpr beyond)
        simp [never, Nat.not_lt.mpr beyond]
    | some enable =>
        have bound := (List.getElem?_eq_some_iff.mp held).1
        have holds := keeps holds start (fun t enable current held _ holds =>
          (each t enable current held holds).2.2) bound.le
        obtain ⟨unknown, true, _⟩ := each t enable _ held holds
        simp only [getElem?_outputs, held, Option.map_some, Option.some.injEq, ne_eq, bound,
          true_and, ← unknown, ← true]
        cases (step (after step timer now (enables.take t))
          (cycleAfter now (t + 1)) enable).1 <;> simp
  exact ⟨length_outputs, fun t => (at_step t).1, fun t => (at_step t).2.1, fun t => (at_step t).2.2⟩

namespace Strategy

def outputs (strategy : Strategy) (now : Nat) : List States → List Tri
  | [] => []
  | view :: views =>
    (strategy.calculate view (cycleAfter now 1)).1 ::
      (strategy.calculate view (cycleAfter now 1)).2.outputs (cycleAfter now 1) views

theorem outputs_timer {Timer : Type} (step : Timer → Nat → Tri → Tri × Timer)
    {behaviour : Timer → Behaviour} {element : ElementId} {binding : Binding}
    (calculates : ∀ timer view now, calculate ⟨element, behaviour timer, [binding]⟩ view now =
      ((step timer now (binding.read view)).1,
        ⟨element, behaviour (step timer now (binding.read view)).2, [binding]⟩))
    (timer : Timer) (now : Nat) (views : List States) :
    outputs ⟨element, behaviour timer, [binding]⟩ now views =
      Timing.outputs step timer now (views.map binding.read) := by
  induction views generalizing timer now with
  | nil => rfl
  | cons view views ih =>
      rw [outputs, calculates, List.map_cons, Timing.outputs]
      exact congrArg _ (ih _ _)

end Strategy

namespace Plan

variable {plan : Plan}

def shown (plan : Plan) (slot : Nat) : List Event → List Tri
  | [] => []
  | .cycle :: events => plan.evaluate.states.getD slot .unknown :: plan.evaluate.shown slot events
  | .write element value :: events => (plan.meet (.write element value)).shown slot events

def views (plan : Plan) (slot : Nat) : List Event → List States
  | [] => []
  | .cycle :: events => plan.found slot :: plan.evaluate.views slot events
  | .write element value :: events => (plan.meet (.write element value)).views slot events

/-- The cell of a computed slot takes the outputs of the slot's strategy, one in each cycle. -/
theorem Scheduled.shown_eq (scheduled : plan.Scheduled) {slot : Nat} {strategy : Strategy}
    (computed : plan.computes slot) (held : plan.strategies[slot]? = some strategy)
    (events : List Event) :
    plan.shown slot events = strategy.outputs plan.clock.cycle (plan.views slot events) := by
  induction events generalizing plan strategy with
  | nil => rfl
  | cons event events ih =>
      cases event with
      | cycle =>
          obtain ⟨value, later⟩ := scheduled.computed computed held
          have clock : plan.evaluate.clock = plan.clock.advance := by rw [evaluate_rest]
          have again : plan.evaluate.computes slot := by rwa [computes_evaluate]
          simp only [shown, views, Strategy.outputs]
          rw [ih scheduled.evaluate again later, clock, Array.getD_eq_getD_getElem?, value,
            Option.getD_some]
          rfl
      | write element value =>
          simp only [shown, views, meet_write]
          cases plan.slot element with
          | none => exact ih scheduled computed held
          | some written => exact ih (scheduled.withStates (by simp)) computed held

end Plan

end RelayLogic
