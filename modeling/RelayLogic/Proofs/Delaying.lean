import RelayLogic.Proofs.Timing

/-!
Delays are told by the history of the enable input. An on-delay timer is on in the steps up to which
the input has been true for all the timer's cycles; an off-delay timer is on while the input is true
and for the timer's cycles after it fell. Both count from where the last streak of the input began.
-/

namespace RelayLogic

@[simp] theorem Tri.ofBool_eq_true {value : Bool} : Tri.ofBool value = .true ↔ value := by
  cases value <;> simp [ofBool]

@[simp] theorem Tri.ofBool_ne_unknown {value : Bool} : Tri.ofBool value ≠ .unknown := by
  cases value <;> simp [ofBool]

/-- Whether the values in the last `count` steps up to the step `t` are true. -/
def HeldTrue (values : List Tri) (count t : Nat) : Prop :=
  count ≤ t + 1 ∧ ∀ i ≤ t, t < i + count → values[i]? = some .true

instance (values : List Tri) (count t : Nat) : Decidable (HeldTrue values count t) :=
  inferInstanceAs (Decidable (_ ∧ _))

/-- Whether a value was true before the step `t`, by `count` steps at most, and false ever since. -/
def FellWithin (values : List Tri) (count t : Nat) : Prop :=
  ∃ s < t, t - s ≤ count ∧ values[s]? = some .true ∧ ∀ i ≤ t, s < i → values[i]? = some .false

instance (values : List Tri) (count t : Nat) : Decidable (FellWithin values count t) :=
  inferInstanceAs (Decidable (∃ s < t, _))

namespace Streak

variable {values : List Tri} {count first t : Nat}

theorem heldTrue_iff (streak : Streak .true values first (t + 1)) :
    HeldTrue values count t ↔ first + count ≤ t + 1 := by
  constructor
  · rintro ⟨enough, held⟩
    by_contra short
    have le := streak.le
    exact streak.before (first - 1) (by omega) (by omega) (held (first - 1) (by omega) (by omega))
  · intro long
    exact ⟨by omega, fun i bound since => streak.inside i (by omega) (by omega)⟩

theorem fellWithin_iff (streak : Streak .false values first (t + 1)) :
    values[t]? = some .true ∨ FellWithin values count t ↔
      (∃ s < first, s + 1 = first ∧ values[s]? = some .true) ∧ t + 1 ≤ first + count := by
  constructor
  · rintro (now | ⟨s, earlier, near, high, low⟩)
    · have changed : values[t]? ≠ some .false := by simp [now]
      have here : t + 1 = first := streak.unique (.reset changed)
      exact ⟨⟨t, by omega, here, now⟩, by omega⟩
    · have fell : Streak .false values (s + 1) (t + 1) :=
        ⟨by omega, fun i bound since => low i (by omega) since, fun i _ last => by
          rw [Nat.succ_injective last, high]
          simp⟩
      have here : s + 1 = first := streak.unique fell
      exact ⟨⟨s, by omega, here, high⟩, by omega⟩
  · rintro ⟨⟨s, _, rfl, high⟩, near⟩
    rcases Nat.lt_or_ge s t with earlier | latest
    · exact .inr ⟨s, earlier, by omega, high, fun i bound since =>
        streak.inside i (by omega) (by omega)⟩
    · have le := streak.le
      obtain rfl : s = t := by omega
      exact .inl high

end Streak

namespace OnDelay

variable {cycles now t : Nat} {enables : List Tri} {timer : OnDelay}

/-- The timer after `t` steps: it counts since the enable input is true, if it is. -/
def Counts (cycles now : Nat) (enables : List Tri) (t : Nat) (timer : OnDelay) : Prop :=
  ∃ first, Streak .true enables first t ∧
    timer = ⟨cycles, if first < t then some (now + first + 1 + (cycles - 1)) else none⟩

theorem counts_new : Counts cycles now enables 0 (.new cycles) :=
  ⟨0, .zero, rfl⟩

theorem step_true {first : Nat} (le : first ≤ t) (fits : now + t + 1 + cycles < 2 ^ 64) :
    step ⟨cycles, if first < t then some (now + first + 1 + (cycles - 1)) else none⟩ (now + t + 1)
        .true =
      (.ofBool (first + max cycles 1 ≤ t + 1),
        ⟨cycles, some (now + first + 1 + (cycles - 1))⟩) := by
  have due : (if first < t then some (now + first + 1 + (cycles - 1)) else none).getD
      (cycleAfter (now + t + 1) (cycles - 1)) = now + first + 1 + (cycles - 1) := by
    split
    · rfl
    · rw [Option.getD_none, cycleAfter_eq (by omega)]
      omega
  have on : now + first + 1 + (cycles - 1) ≤ now + t + 1 ↔ first + max cycles 1 ≤ t + 1 := by
    omega
  simp only [step, due, on]

theorem Counts.step (counts : Counts cycles now enables t timer) {enable : Tri}
    (held : enables[t]? = some enable) (fits : now + enables.length + cycles < 2 ^ 64) :
    ((timer.step (cycleAfter now (t + 1)) enable).1 = .unknown ↔ enable = .unknown) ∧
      ((timer.step (cycleAfter now (t + 1)) enable).1 = .true ↔
        HeldTrue enables (max cycles 1) t) ∧
      Counts cycles now enables (t + 1) (timer.step (cycleAfter now (t + 1)) enable).2 := by
  obtain ⟨counted, fits⟩ := Timing.counted held fits
  obtain ⟨first, streak, rfl⟩ := counts
  rw [counted]
  cases enable with
  | true =>
      have longer := streak.grow held
      rw [step_true streak.le fits, longer.heldTrue_iff]
      refine ⟨by simp, by simp, first, longer, ?_⟩
      simp [Nat.lt_succ_of_le streak.le]
  | false | unknown =>
      have ended : Streak .true enables (t + 1) (t + 1) := .reset (by simp [held])
      simp only [OnDelay.step, ended.heldTrue_iff]
      refine ⟨by simp, ?_, t + 1, ended, by simp⟩
      simp only [reduceCtorEq, false_iff]
      omega

end OnDelay

/-- The outputs of an on-delay timer: true in the steps up to which the value that it reads has been
true for its cycles, of which there is one at least. -/
theorem Strategy.onDelay_definedBy (element : ElementId) (cycles : Nat) (binding : Binding)
    (now : Nat) (views : List States) (fits : now + views.length + cycles < 2 ^ 64) :
    DefinedBy (views.map binding.read)
      (outputs ⟨element, .onDelay (.new cycles), [binding]⟩ now views)
      (HeldTrue (views.map binding.read) (max cycles 1)) := by
  rw [outputs_timer OnDelay.step fun _ _ _ => rfl]
  rw [← List.length_map binding.read] at fits
  generalize views.map binding.read = enables at fits
  refine Timing.definedBy (OnDelay.Counts cycles now enables) OnDelay.counts_new
    (fun _ _ _ held counts => counts.step held fits) ?_
  rintro t ⟨_, held⟩
  exact (List.getElem?_eq_some_iff.mp (held t le_rfl (by omega))).1

def Strategy.press : List States :=
  [#[.true], #[.true], #[.true], #[.unknown], #[.true]]

theorem Strategy.press_definedBy :
    0 + press.length + 3 < 2 ^ 64 ∧
      outputs ⟨0, .onDelay (.new 3), [⟨0, false⟩]⟩ 0 press =
        [.false, .false, .true, .unknown, .false] ∧
      DefinedBy (press.map (Binding.read ⟨0, false⟩))
        (outputs ⟨0, .onDelay (.new 3), [⟨0, false⟩]⟩ 0 press)
        (HeldTrue (press.map (Binding.read ⟨0, false⟩)) (max 3 1)) :=
  ⟨by decide, by decide, onDelay_definedBy 0 3 ⟨0, false⟩ 0 press (by decide)⟩

namespace OffDelay

variable {cycles now t : Nat} {enables : List Tri} {timer : OffDelay}

theorem output_step (timer : OffDelay) (now : Nat) (enable : Tri) :
    (timer.step now enable).2.output = (timer.step now enable).1 := by
  cases enable with
  | false =>
      simp only [step]
      split
      · split <;> rfl
      · rfl
  | true | unknown => rfl

theorem step_eq_unknown_iff {enable : Tri} :
    (timer.step now enable).1 = .unknown ↔ enable = .unknown := by
  cases enable with
  | false =>
      simp only [step]
      split
      · split <;> simp
      · simp
  | true | unknown => simp [step]

/-- The timer after `t` steps: it is on if the enable input was true before it became false, unless
that is too long ago, and counts since the input is false. -/
structure Counts (cycles now : Nat) (enables : List Tri) (t : Nat) (timer : OffDelay)
    (first : Nat) : Prop where
  streak : Streak .false enables first t
  width : timer.cycles = cycles
  output : timer.output = .true ↔
    (∃ s < first, s + 1 = first ∧ enables[s]? = some .true) ∧ t ≤ first + cycles
  due : timer.due =
    if timer.output = .true ∧ first < t then some (now + first + 1 + cycles) else none

theorem counts_new : Counts cycles now enables 0 (.new cycles) 0 :=
  ⟨.zero, rfl, by simp [new], rfl⟩

theorem Counts.step_false {first : Nat} (counts : Counts cycles now enables t timer first)
    (held : enables[t]? = some .false) (fits : now + t + 1 + cycles < 2 ^ 64) :
    Counts cycles now enables (t + 1) (timer.step (now + t + 1) .false).2 first := by
  obtain ⟨streak, rfl, output, due⟩ := counts
  have le := streak.le
  by_cases on : timer.output = .true
  · have ends : timer.due.getD (cycleAfter (now + t + 1) timer.cycles) =
        now + first + 1 + timer.cycles := by
      rw [due, cycleAfter_eq fits]
      split
      · rfl
      · simp only [on, true_and] at *
        rw [Option.getD_none]
        omega
    have fell := (output.mp on).1
    simp only [OffDelay.step, on, ↓reduceIte, ends]
    by_cases past : now + first + 1 + timer.cycles ≤ now + t + 1
    · rw [if_pos past]
      refine ⟨streak.grow held, rfl, ?_, by simp⟩
      simp only [reduceCtorEq, fell, true_and, false_iff]
      omega
    · rw [if_neg past]
      refine ⟨streak.grow held, rfl, ?_, ?_⟩
      · simp only [fell, true_and, true_iff]
        omega
      · simp [Nat.lt_succ_of_le le]
  · simp only [OffDelay.step, on, ↓reduceIte]
    refine ⟨streak.grow held, rfl, ?_, by simpa [on] using due⟩
    simp only [reduceCtorEq, false_iff]
    rintro ⟨fell, near⟩
    exact on (output.mpr ⟨fell, by omega⟩)

theorem Counts.step {first : Nat} (counts : Counts cycles now enables t timer first) {enable : Tri}
    (held : enables[t]? = some enable) (fits : now + enables.length + cycles < 2 ^ 64) :
    ((timer.step (cycleAfter now (t + 1)) enable).1 = .unknown ↔ enable = .unknown) ∧
      ((timer.step (cycleAfter now (t + 1)) enable).1 = .true ↔
        enables[t]? = some .true ∨ FellWithin enables cycles t) ∧
      ∃ later,
        Counts cycles now enables (t + 1) (timer.step (cycleAfter now (t + 1)) enable).2 later := by
  obtain ⟨counted, fits⟩ := Timing.counted held fits
  rw [counted]
  have next : ∃ later,
      Counts cycles now enables (t + 1) (timer.step (now + t + 1) enable).2 later := by
    cases enable with
    | false => exact ⟨first, counts.step_false held fits⟩
    | true | unknown =>
        refine ⟨t + 1, .reset (by simp [held]), counts.width, ?_, by simp [OffDelay.step]⟩
        simp [OffDelay.step, held]
  obtain ⟨later, after⟩ := next
  refine ⟨step_eq_unknown_iff, ?_, later, after⟩
  rw [← output_step, after.output, after.streak.fellWithin_iff]

end OffDelay

/-- The outputs of an off-delay timer: true in the steps in which the value that it reads is true,
and for its cycles after it fell. -/
theorem Strategy.offDelay_definedBy (element : ElementId) (cycles : Nat) (binding : Binding)
    (now : Nat) (views : List States) (fits : now + views.length + cycles < 2 ^ 64) :
    DefinedBy (views.map binding.read)
      (outputs ⟨element, .offDelay (.new cycles), [binding]⟩ now views)
      (fun t => (views.map binding.read)[t]? = some .true ∨
        FellWithin (views.map binding.read) cycles t) := by
  rw [outputs_timer OffDelay.step fun _ _ _ => rfl]
  rw [← List.length_map binding.read] at fits
  generalize views.map binding.read = enables at fits
  refine Timing.definedBy (fun t timer => ∃ first, OffDelay.Counts cycles now enables t timer first)
    ⟨0, OffDelay.counts_new⟩ (fun _ _ _ held ⟨_, counts⟩ => counts.step held fits) ?_
  rintro t (high | ⟨s, earlier, _, _, low⟩)
  · exact (List.getElem?_eq_some_iff.mp high).1
  · exact (List.getElem?_eq_some_iff.mp (low t le_rfl earlier)).1

def Strategy.releases : List States :=
  [#[.true], #[.false], #[.true], #[.false], #[.false], #[.false], #[.true], #[.unknown], #[.false]]

theorem Strategy.releases_definedBy :
    0 + releases.length + 2 < 2 ^ 64 ∧
      outputs ⟨0, .offDelay (.new 2), [⟨0, false⟩]⟩ 0 releases =
        [.true, .true, .true, .true, .true, .false, .true, .unknown, .false] ∧
      DefinedBy (releases.map (Binding.read ⟨0, false⟩))
        (outputs ⟨0, .offDelay (.new 2), [⟨0, false⟩]⟩ 0 releases)
        (fun t => (releases.map (Binding.read ⟨0, false⟩))[t]? = some .true ∨
          FellWithin (releases.map (Binding.read ⟨0, false⟩)) 2 t) :=
  ⟨by decide, by decide, offDelay_definedBy 0 2 ⟨0, false⟩ 0 releases (by decide)⟩

/-- A delay of more cycles than the counter has left is over at once. -/
example : Strategy.outputs ⟨0, .offDelay (.new (2 ^ 64 - 1)), [⟨0, false⟩]⟩ 0
    [#[.true], #[.false], #[.false], #[.false]] = [.true, .false, .false, .false] := by decide

end RelayLogic
