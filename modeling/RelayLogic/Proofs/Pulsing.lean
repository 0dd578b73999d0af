import RelayLogic.Proofs.Timing

/-!
Pulses. Each run of true outputs of a pulse timer starts where the enable input rises and has the
timer's width, unless the input becomes unknown in it or nothing comes after it. A rise outside of
all windows starts such a run, but for a rise in the very step that a window runs out in: that one
is lost.
-/

namespace RelayLogic

def RisesAt (values : List Tri) (t : Nat) : Prop :=
  values[t]? = some .true ∧ ∃ s < t, s + 1 = t ∧ values[s]? = some .false

/-- Whether a window opens in a step: the output is true, and was not in the step before. -/
def OpensAt (outputs : List Tri) (t : Nat) : Prop :=
  Streak .true outputs t (t + 1)

def CancelledBetween (enables : List Tri) (first stop : Nat) : Prop :=
  ∃ t < stop, first < t ∧ enables[t]? = some .unknown

/-- Whether no window is open in a step: whatever opened before is over by then, or cancelled. -/
def IdleAt (width : Nat) (enables outputs : List Tri) (t : Nat) : Prop :=
  ∀ s < t, OpensAt outputs s → s + width ≤ t ∨ CancelledBetween enables s t

/-- Whether a window that was not cancelled is over in a step, and was not in the step before. -/
def RunsOutAt (width : Nat) (enables outputs : List Tri) (t : Nat) : Prop :=
  ∃ s < t, s + width = t ∧ OpensAt outputs s ∧ ¬CancelledBetween enables s t

structure Burst (outputs : List Tri) (first stop : Nat) : Prop extends
    Streak .true outputs first stop where
  lt : first < stop
  ended : outputs[stop]? ≠ some .true

section

variable {values enables outputs : List Tri} {width first stop t : Nat}

instance : Decidable (RisesAt values t) :=
  inferInstanceAs (Decidable (_ ∧ _))

instance : Decidable (OpensAt outputs t) :=
  inferInstanceAs (Decidable (Streak _ _ _ _))

instance : Decidable (CancelledBetween enables first stop) :=
  inferInstanceAs (Decidable (∃ t < stop, _))

instance : Decidable (IdleAt width enables outputs t) :=
  inferInstanceAs (Decidable (∀ s < t, _))

instance : Decidable (RunsOutAt width enables outputs t) :=
  inferInstanceAs (Decidable (∃ s < t, _))

instance : Decidable (Burst outputs first stop) :=
  decidable_of_iff (Streak .true outputs first stop ∧ first < stop ∧ outputs[stop]? ≠ some .true)
    ⟨fun ⟨streak, lt, ended⟩ => ⟨streak, lt, ended⟩,
      fun ⟨streak, lt, ended⟩ => ⟨streak, lt, ended⟩⟩

end

namespace Pulse

variable {width now t first : Nat} {enables others outputs : List Tri}
variable {timer : Pulse} {enable : Tri}

theorem step_open {limit : Nat} (opened : timer.ends = some limit) (known : enable ≠ .unknown) :
    timer.step now enable = if now < limit then (.true, ⟨timer.cycles, enable = .false, some limit⟩)
      else (.false, ⟨timer.cycles, enable = .false, none⟩) := by
  cases enable with
  | unknown => contradiction
  | true | false => simp [step, window, opened]

theorem step_closed (closed : timer.ends = none) (known : enable ≠ .unknown)
    (fits : now + timer.cycles < 2 ^ 64) :
    timer.step now enable = if enable = .true ∧ timer.armed ∧ 0 < timer.cycles then
        (.true, ⟨timer.cycles, false, some (now + timer.cycles)⟩)
      else (.false, ⟨timer.cycles, enable = .false, none⟩) := by
  cases enable with
  | unknown => contradiction
  | false => simp [step, window, closed]
  | true =>
      have ends := cycleAfter_eq fits
      by_cases armed : timer.armed
      · by_cases positive : 0 < timer.cycles <;>
          simp [step, window, closed, armed, positive, ends]
      · simp [step, window, closed, armed]

theorem window_ne_unknown : (timer.window now).1 ≠ .unknown := by
  unfold window
  split
  · split <;> simp
  · simp

theorem step_eq_unknown_iff : (timer.step now enable).1 = .unknown ↔ enable = .unknown := by
  cases enable <;> simp [step, window_ne_unknown]

/-- The timer after `t` steps: a window is open if the output was true last, and ends by when that
began; the timer is armed if the enable input was false last. -/
structure Watches (width now : Nat) (enables outputs : List Tri) (t : Nat) (timer : Pulse)
    (first : Nat) : Prop where
  streak : Streak .true outputs first t
  cycles : timer.cycles = width
  armed : timer.armed ↔ ∃ s < t, s + 1 = t ∧ enables[s]? = some .false
  ends : timer.ends = if first < t then some (now + first + 1 + width) else none

def GoesOn (width : Nat) (enables : List Tri) (first t : Nat) : Prop :=
  if first < t then t < first + width else 0 < width ∧ RisesAt enables t

theorem last_false_iff (held : enables[t]? = some enable) :
    enable = .false ↔ ∃ s < t + 1, s + 1 = t + 1 ∧ enables[s]? = some .false := by
  constructor
  · rintro rfl
    exact ⟨t, t.lt_succ_self, rfl, held⟩
  · rintro ⟨s, _, last, low⟩
    obtain rfl := Nat.succ_injective last
    exact Option.some.inj (held.symm.trans low)

theorem watches_closed (low : outputs[t]? ≠ some .true) (held : enables[t]? = some enable) :
    Watches width now enables outputs (t + 1) ⟨width, enable = .false, none⟩ (t + 1) :=
  ⟨.reset low, rfl, by simpa using last_false_iff held, by simp⟩

theorem watches_open (streak : Streak .true outputs first t) (high : outputs[t]? = some .true)
    (held : enables[t]? = some enable) : Watches width now enables outputs (t + 1)
      ⟨width, enable = .false, some (now + first + 1 + width)⟩ first :=
  ⟨streak.grow high, rfl, by simpa using last_false_iff held,
    by simp [Nat.lt_succ_of_le streak.le]⟩

theorem Watches.step_inside (watches : Watches width now enables outputs t timer first)
    (opened : first < t) (known : enable ≠ .unknown) (held : enables[t]? = some enable)
    (given : outputs[t]? = some (timer.step (now + t + 1) enable).1) :
    (outputs[t]? = some .true ↔ t < first + width) ∧ ∃ later,
      Watches width now enables outputs (t + 1) (timer.step (now + t + 1) enable).2 later := by
  obtain ⟨streak, rfl, _, ends⟩ := watches
  rw [if_pos opened] at ends
  rw [step_open ends known] at given ⊢
  by_cases early : t < first + timer.cycles
  · rw [if_pos (by omega)] at given ⊢
    exact ⟨by simp [given, early], first, watches_open streak given held⟩
  · rw [if_neg (by omega)] at given ⊢
    exact ⟨by simp [given, early], t + 1, watches_closed (by simp [given]) held⟩

theorem Watches.step_outside (watches : Watches width now enables outputs t timer t)
    (known : enable ≠ .unknown) (held : enables[t]? = some enable)
    (given : outputs[t]? = some (timer.step (now + t + 1) enable).1)
    (fits : now + t + 1 + width < 2 ^ 64) :
    (outputs[t]? = some .true ↔ 0 < width ∧ RisesAt enables t) ∧ ∃ later,
      Watches width now enables outputs (t + 1) (timer.step (now + t + 1) enable).2 later := by
  obtain ⟨streak, rfl, armed, ends⟩ := watches
  rw [if_neg (Nat.lt_irrefl t)] at ends
  rw [step_closed ends known fits] at given ⊢
  have rises : RisesAt enables t ↔ enable = .true ∧ timer.armed := by
    rw [RisesAt, held, Option.some.injEq, armed]
  by_cases starts : enable = .true ∧ timer.armed ∧ 0 < timer.cycles
  · rw [if_pos starts] at given ⊢
    obtain ⟨rfl, ready, positive⟩ := starts
    exact ⟨by simp [given, rises, ready, positive], t, watches_open streak given held⟩
  · rw [if_neg starts] at given ⊢
    refine ⟨?_, t + 1, watches_closed (by simp [given]) held⟩
    rw [given, rises]
    simp only [Option.some.injEq, reduceCtorEq, false_iff]
    exact fun ⟨positive, high, ready⟩ => starts ⟨high, ready, positive⟩

theorem Watches.step (watches : Watches width now enables outputs t timer first)
    (held : enables[t]? = some enable)
    (given : outputs[t]? = some (timer.step (cycleAfter now (t + 1)) enable).1)
    (fits : now + enables.length + width < 2 ^ 64) :
    (outputs[t]? = some .true ↔ enable ≠ .unknown ∧ GoesOn width enables first t) ∧ ∃ later,
      Watches width now enables outputs (t + 1)
        (timer.step (cycleAfter now (t + 1)) enable).2 later := by
  obtain ⟨counted, fits⟩ := Timing.counted held fits
  rw [counted] at given ⊢
  by_cases known : enable = .unknown
  · subst known
    have low : outputs[t]? ≠ some .true := by simp [given, Pulse.step]
    refine ⟨by simp [low], t + 1, ?_⟩
    rw [← watches.cycles]
    exact watches_closed low held
  · rw [and_iff_right known, GoesOn]
    rcases watches.streak.le.lt_or_eq with opened | rfl
    · rw [if_pos opened]
      exact watches.step_inside opened known held given
    · rw [if_neg (Nat.lt_irrefl _)]
      exact watches.step_outside known held given fits

abbrev train (width now : Nat) (enables : List Tri) : List Tri :=
  Timing.outputs step (.new width) now enables

variable {stop : Nat}

theorem train_eq_unknown_iff (t : Nat) :
    (train width now enables)[t]? = some .unknown ↔ enables[t]? = some .unknown := by
  rw [Timing.getElem?_outputs]
  cases enables[t]? with
  | none => simp
  | some enable => simp [step_eq_unknown_iff]

theorem opens_congr (same : ∀ t ≤ first, others[t]? = enables[t]?)
    (opens : OpensAt (train width now enables) first) :
    OpensAt (train width now others) first := by
  have alike : ∀ t ≤ first,
      (train width now others)[t]? = (train width now enables)[t]? := fun t bound =>
    Timing.getElem?_outputs_congr fun i le => same i (le.trans bound)
  refine ⟨opens.le, fun t bound since => ?_, fun t bound last => ?_⟩
  · rw [alike t (by omega)]
    exact opens.inside t bound since
  · rw [alike t bound.le]
    exact opens.before t bound last

theorem not_cancelled (streak : Streak .true (train width now enables) first stop) :
    ¬CancelledBetween enables first stop := by
  rintro ⟨t, before, since, unknown⟩
  have high := streak.inside t before since.le
  rw [(train_eq_unknown_iff t).mpr unknown] at high
  simp at high

variable (fits : now + enables.length + width < 2 ^ 64)
include fits

theorem train_eq_true_iff (streak : Streak .true (train width now enables) first t)
    (held : enables[t]? = some enable) : (train width now enables)[t]? = some .true ↔
      enable ≠ .unknown ∧ GoesOn width enables first t := by
  have start : Watches width now enables (train width now enables) 0 (.new width) 0 :=
    ⟨.zero, rfl, by simp [new], rfl⟩
  obtain ⟨same, watches⟩ := Timing.keeps (fun t timer => ∃ first,
      Watches width now enables (train width now enables) t timer first) ⟨0, start⟩
    (fun _ _ _ held given ⟨_, watches⟩ => (watches.step held given fits).2)
    (List.getElem?_eq_some_iff.mp held).1.le
  obtain rfl := streak.unique watches.streak
  refine (watches.step held ?_ fits).1
  rw [train, Timing.getElem?_outputs, held]
  rfl

theorem rises_of_opens (opens : OpensAt (train width now enables) first) :
    0 < width ∧ RisesAt enables first := by
  have high := opens.inside first first.lt_succ_self le_rfl
  obtain ⟨enable, held⟩ := Timing.exists_enable high
  have goesOn := ((train_eq_true_iff fits (opens.cut le_rfl (Nat.le_succ _)) held).mp high).2
  simpa [GoesOn] using goesOn

theorem streak_le (streak : Streak .true (train width now enables) first stop) :
    stop ≤ first + width := by
  by_contra! long
  have high := streak.inside (first + width) long (Nat.le_add_right _ _)
  obtain ⟨enable, held⟩ := Timing.exists_enable high
  have goesOn :=
    ((train_eq_true_iff fits (streak.cut (Nat.le_add_right _ _) long.le) held).mp high).2
  -- If the width is zero, this says that no window opens; otherwise that the window is over.
  unfold GoesOn at goesOn
  split at goesOn
  · exact Nat.lt_irrefl _ goesOn
  · omega

theorem lasts (opens : OpensAt (train width now enables) first) (begun : first < stop)
    (width_le : stop ≤ first + width) (bound : stop ≤ enables.length)
    (undisturbed : ¬CancelledBetween enables first stop) :
    Streak .true (train width now enables) first stop := by
  induction stop, begun using Nat.le_induction with
  | base => exact opens
  | succ stop begun ih =>
      have earlier : ¬CancelledBetween enables first stop := fun ⟨t, before, rest⟩ =>
        undisturbed ⟨t, Nat.lt_succ_of_lt before, rest⟩
      have streak := ih (by omega) (by omega) earlier
      have held := List.getElem?_eq_getElem (show stop < enables.length by omega)
      refine streak.grow ((train_eq_true_iff fits streak held).mpr ⟨fun unknown => ?_, ?_⟩)
      · exact undisturbed ⟨stop, stop.lt_succ_self, begun, held.trans (congrArg some unknown)⟩
      · rw [GoesOn, if_pos (Nat.lt_of_succ_le begun)]
        omega

theorem burst_iff : Burst (train width now enables) first stop ↔
    OpensAt (train width now enables) first ∧ first < stop ∧ stop ≤ first + width ∧
      stop ≤ enables.length ∧ ¬CancelledBetween enables first stop ∧
        (stop < first + width → stop = enables.length ∨ enables[stop]? = some .unknown) := by
  constructor
  · rintro ⟨streak, lt, ended⟩
    have bound : stop ≤ enables.length := by
      obtain ⟨enable, held⟩ :=
        Timing.exists_enable (streak.inside (stop - 1) (by omega) (by omega))
      have := (List.getElem?_eq_some_iff.mp held).1
      omega
    refine ⟨streak.cut (Nat.le_succ _) lt, lt, streak_le fits streak, bound,
      not_cancelled streak, fun short => ?_⟩
    by_contra! cut
    obtain ⟨inside, known⟩ := cut
    have held := List.getElem?_eq_getElem (show stop < enables.length by omega)
    rw [held, ne_eq, Option.some.injEq] at known
    refine ended ((train_eq_true_iff fits streak held).mpr ⟨known, ?_⟩)
    rwa [GoesOn, if_pos lt]
  · rintro ⟨opens, lt, width_le, bound, undisturbed, short⟩
    have streak := lasts fits opens lt width_le bound undisturbed
    refine ⟨streak, lt, fun high => ?_⟩
    obtain ⟨enable, held⟩ := Timing.exists_enable high
    obtain ⟨known, goesOn⟩ := (train_eq_true_iff fits streak held).mp high
    rw [GoesOn, if_pos lt] at goesOn
    rcases short goesOn with last | unknown
    · exact absurd (List.getElem?_eq_some_iff.mp held).1 (by omega)
    · exact known (Option.some.inj (held.symm.trans unknown))

theorem burst_congr (burst : Burst (train width now enables) first stop)
    (length : others.length = enables.length) (same : ∀ t ≤ first, others[t]? = enables[t]?)
    (unknown : ∀ t ≤ stop, first < t →
      (others[t]? = some .unknown ↔ enables[t]? = some .unknown)) :
    Burst (train width now others) first stop := by
  obtain ⟨opens, lt, width_le, bound, undisturbed, short⟩ := (burst_iff fits).mp burst
  refine (burst_iff (length ▸ fits)).mpr
    ⟨opens_congr same opens, lt, width_le, length ▸ bound, ?_, ?_⟩
  · rintro ⟨t, before, since, cancelled⟩
    exact undisturbed ⟨t, before, since, (unknown t before.le since).mp cancelled⟩
  · rw [length, unknown stop le_rfl lt]
    exact short

theorem train_eq_false (rises : RisesAt enables t)
    (late : RunsOutAt width enables (train width now enables) t) :
    (train width now enables)[t]? = some .false := by
  obtain ⟨first, earlier, rfl, opens, undisturbed⟩ := late
  have held := rises.1
  have bound := (List.getElem?_eq_some_iff.mp held).1.le
  have streak := lasts fits opens earlier le_rfl bound undisturbed
  have low : (train width now enables)[first + width]? ≠ some .true := by
    rw [ne_eq, train_eq_true_iff fits streak held, GoesOn, if_pos earlier]
    simp
  have known : (train width now enables)[first + width]? ≠ some .unknown := by
    rw [ne_eq, train_eq_unknown_iff, held]
    simp
  obtain ⟨output, given⟩ := Timing.exists_output held
  rw [given] at low known ⊢
  cases output with
  | true => exact absurd rfl low
  | false => rfl
  | unknown => exact absurd rfl known

theorem opens_iff (positive : 1 ≤ width) (rises : RisesAt enables t)
    (idle : IdleAt width enables (train width now enables) t) :
    OpensAt (train width now enables) t ↔
      ¬RunsOutAt width enables (train width now enables) t := by
  have held := rises.1
  constructor
  · intro opens late
    have high := opens.inside t t.lt_succ_self le_rfl
    rw [train_eq_false fits rises late] at high
    simp at high
  · intro quiet
    obtain ⟨first, streak⟩ := Streak.exists_first .true (train width now enables) t
    rcases streak.le.lt_or_eq with earlier | rfl
    · -- The window of that streak is over in this step, and not before it: it runs out.
      have undisturbed := not_cancelled streak
      have opens : OpensAt _ first := streak.cut (Nat.le_succ _) earlier
      have ended := (idle first earlier opens).resolve_right undisturbed
      have expired := ended.antisymm (streak_le fits streak)
      exact absurd ⟨first, earlier, expired, opens, undisturbed⟩ quiet
    · refine streak.grow ((train_eq_true_iff fits streak held).mpr ⟨by simp, ?_⟩)
      rw [GoesOn, if_neg (Nat.lt_irrefl _)]
      exact ⟨positive, rises⟩

end Pulse

namespace Strategy

variable (element : ElementId) (width : Nat) (binding : Binding) (now : Nat) (views : List States)

abbrev pulses : List Tri :=
  outputs ⟨element, .pulse (.new width), [binding]⟩ now views

theorem pulses_eq :
    pulses element width binding now views = Pulse.train width now (views.map binding.read) :=
  outputs_timer Pulse.step (fun _ _ _ => rfl) (.new width) now views

/-- Pulses have the width of their timer and start where the input rises. Only an unknown input can
cut one short, and nothing else that the input does meanwhile makes any difference. -/
theorem pulse_bursts (fits : now + views.length + width < 2 ^ 64) :
    (pulses element width binding now views).length = views.length ∧
    (∀ t : Nat, (pulses element width binding now views)[t]? = some .unknown ↔
      (views.map binding.read)[t]? = some .unknown) ∧
    ∀ first stop, Burst (pulses element width binding now views) first stop →
      RisesAt (views.map binding.read) first ∧ stop ≤ first + width ∧
      (stop < first + width →
        stop = views.length ∨ (views.map binding.read)[stop]? = some .unknown) ∧
      ∀ others : List States, others.length = views.length →
        (∀ t ≤ first, (others.map binding.read)[t]? = (views.map binding.read)[t]?) →
        (∀ t ≤ stop, first < t → ((others.map binding.read)[t]? = some .unknown ↔
          (views.map binding.read)[t]? = some .unknown)) →
        Burst (pulses element width binding now others) first stop := by
  simp only [pulses_eq]
  rw [← List.length_map binding.read] at fits
  refine ⟨by simp, Pulse.train_eq_unknown_iff, fun first stop burst => ?_⟩
  obtain ⟨opens, _, width_le, _, _, short⟩ := (Pulse.burst_iff fits).mp burst
  refine ⟨(Pulse.rises_of_opens fits opens).2, width_le, ?_, fun others length same unknown => ?_⟩
  · rwa [List.length_map] at short
  · exact Pulse.burst_congr fits burst (by simpa using length) same unknown

def presses : List States :=
  [#[.false], #[.true], #[.false], #[.true], #[.true], #[.false], #[.true], #[.false]]

theorem presses_burst : 7 + presses.length + 2 < 2 ^ 64 ∧
    Burst (pulses 0 2 ⟨0, false⟩ 7 presses) 1 3 ∧
      RisesAt (presses.map (Binding.read ⟨0, false⟩)) 1 ∧
      ∀ others : List States, others.length = presses.length →
        (∀ t ≤ 1, (others.map (Binding.read ⟨0, false⟩))[t]? =
          (presses.map (Binding.read ⟨0, false⟩))[t]?) →
        (∀ t ≤ 3, 1 < t → ((others.map (Binding.read ⟨0, false⟩))[t]? = some .unknown ↔
          (presses.map (Binding.read ⟨0, false⟩))[t]? = some .unknown)) →
        Burst (pulses 0 2 ⟨0, false⟩ 7 others) 1 3 := by
  have burst : Burst (pulses 0 2 ⟨0, false⟩ 7 presses) 1 3 := by decide
  obtain ⟨rises, _, _, steady⟩ := (pulse_bursts 0 2 ⟨0, false⟩ 7 presses (by decide)).2.2 1 3 burst
  exact ⟨by decide, burst, rises, steady⟩

/-- A rise of the input in a step in which no window is open gives a pulse, if the input stays
known, just in case no window runs out in that very step. -/
theorem pulse_answers (fits : now + views.length + width < 2 ^ 64) (t : Nat) (positive : 1 ≤ width)
    (rises : RisesAt (views.map binding.read) t)
    (idle : IdleAt width (views.map binding.read) (pulses element width binding now views) t)
    (known : ∀ i < t + width, t ≤ i → (views.map binding.read)[i]? ≠ some .unknown) :
    (¬RunsOutAt width (views.map binding.read) (pulses element width binding now views) t →
      ∀ i < views.length, t ≤ i → i < t + width →
        (pulses element width binding now views)[i]? = some .true) ∧
    (RunsOutAt width (views.map binding.read) (pulses element width binding now views) t →
      (pulses element width binding now views)[t]? = some .false) := by
  rw [pulses_eq] at idle ⊢
  rw [← List.length_map binding.read] at fits
  have opens_iff := Pulse.opens_iff fits positive rises idle
  constructor
  · intro quiet i bound since inside
    have undisturbed : ¬CancelledBetween (views.map binding.read) t (i + 1) :=
      fun ⟨s, before, later, unknown⟩ => known s (by omega) later.le unknown
    have streak := Pulse.lasts fits (opens_iff.mpr quiet) (Nat.lt_succ_of_le since) inside
      (by rwa [List.length_map]) undisturbed
    exact streak.inside i i.lt_succ_self since
  · exact Pulse.train_eq_false fits rises

theorem presses_answered :
    7 + presses.length + 2 < 2 ^ 64 ∧ 1 ≤ 2 ∧ RisesAt (presses.map (Binding.read ⟨0, false⟩)) 3 ∧
      IdleAt 2 (presses.map (Binding.read ⟨0, false⟩)) (pulses 0 2 ⟨0, false⟩ 7 presses) 3 ∧
      RunsOutAt 2 (presses.map (Binding.read ⟨0, false⟩)) (pulses 0 2 ⟨0, false⟩ 7 presses) 3 ∧
      (pulses 0 2 ⟨0, false⟩ 7 presses)[3]? = some .false ∧
      RisesAt (presses.map (Binding.read ⟨0, false⟩)) 6 ∧
      IdleAt 2 (presses.map (Binding.read ⟨0, false⟩)) (pulses 0 2 ⟨0, false⟩ 7 presses) 6 ∧
      ¬RunsOutAt 2 (presses.map (Binding.read ⟨0, false⟩)) (pulses 0 2 ⟨0, false⟩ 7 presses) 6 ∧
      (pulses 0 2 ⟨0, false⟩ 7 presses)[6]? = some .true ∧
      (pulses 0 2 ⟨0, false⟩ 7 presses)[7]? = some .true := by
  have late : RunsOutAt 2 (presses.map (Binding.read ⟨0, false⟩))
      (pulses 0 2 ⟨0, false⟩ 7 presses) 3 := by decide
  have quiet : ¬RunsOutAt 2 (presses.map (Binding.read ⟨0, false⟩))
      (pulses 0 2 ⟨0, false⟩ 7 presses) 6 := by decide
  have second := (pulse_answers 0 2 ⟨0, false⟩ 7 presses (by decide) 3 (by decide) (by decide)
    (by decide) (by decide)).2 late
  have third := (pulse_answers 0 2 ⟨0, false⟩ 7 presses (by decide) 6 (by decide) (by decide)
    (by decide) (by decide)).1 quiet
  exact ⟨by decide, by decide, by decide, by decide, late, second, by decide, by decide, quiet,
    third 6 (by decide) (by decide) (by decide), third 7 (by decide) (by decide) (by decide)⟩

/-- The second press falls in a step in which no window is open, and gives no pulse. -/
theorem presses_unanswered :
    ¬∀ (element : ElementId) (width : Nat) (binding : Binding) (now : Nat) (views : List States)
      (t : Nat), now + views.length + width < 2 ^ 64 → 1 ≤ width →
        RisesAt (views.map binding.read) t →
        IdleAt width (views.map binding.read) (pulses element width binding now views) t →
          (∀ i < t + width, t ≤ i → (views.map binding.read)[i]? ≠ some .unknown) →
            ∀ i < views.length, t ≤ i → i < t + width →
              (pulses element width binding now views)[i]? = some .true := by
  intro answered
  have second := answered 0 2 ⟨0, false⟩ 7 presses 3 (by decide) (by decide) (by decide) (by decide)
    (by decide) 3 (by decide) (by decide) (by decide)
  revert second
  decide

end Strategy

end RelayLogic
