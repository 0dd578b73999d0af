import RelayLogic.Clock
import RelayLogic.Proofs.Approximating
import RelayLogic.Proofs.Rounding

/-!
The cycles that cover a delay of whole cycles. The delay is off by its rounding, which grows with
it; the allowance does not, so longer delays can take one cycle more than they are written for.
-/

namespace RelayLogic.Clock

open Decimal (binary64 binary64_error)

/-- The cycles that cover a delay, where nothing is rounded but the delay itself. -/
def exactCyclesFor (clock : Clock) (delay : Seconds) : Nat :=
  if clock.resolution = 0 || !delay.isFinite || !delay.isPositive then 0
  else (delay.value * 1000 / clock.resolution - 1 / 10 ^ 6 : ℚ).ceil.toNat

def excess (clock : Clock) (delay : Seconds) (count : Nat) : ℚ :=
  delay.value * 1000 / clock.resolution - count

theorem milliseconds_div (clock : Clock) (delay : Seconds) (count : Nat) :
    delay.value * 1000 / clock.resolution = count + clock.excess delay count := by
  rw [excess]
  ring

theorem toNat_ceil {value : ℚ} {count : Nat} (low : (count : ℚ) - 1 < value)
    (high : value ≤ count) : value.ceil.toNat = count := by
  have most : value.ceil ≤ (count : ℤ) := Rat.ceil_le_iff.mpr (by exact_mod_cast high)
  have least : (count : ℤ) - 1 < value.ceil := Rat.lt_ceil_iff.mpr (by push_cast; exact low)
  omega

theorem toNat_ceil_of_near (value : ℚ) (count : Nat) (low : (count : ℚ) - 1 < value)
    (high : value ≤ count + 1) : value.ceil.toNat = if value ≤ count then count else count + 1 := by
  split
  next within => exact toNat_ceil low within
  next beyond =>
    exact toNat_ceil (by push_cast; linarith) (by push_cast; exact high)

theorem isPositive_of_value {delay : Seconds} (finite : delay.isFinite)
    (positive : 0 < delay.value) : delay.isPositive := by
  have unsigned : delay.signed = false := by
    by_contra signed
    rw [Seconds.value_of_signed (by simpa using signed), Left.neg_pos_iff] at positive
    exact absurd positive (not_lt.mpr (by positivity))
  have notZero : delay.isZero = false := by
    by_contra zero
    have zero : delay.isZero = true := by simpa using zero
    simp only [Seconds.isZero, Bool.and_eq_true, beq_iff_eq] at zero
    rw [Seconds.value_of_unsigned unsigned, Seconds.units, Seconds.significand, if_pos zero.1,
      zero.2] at positive
    simp at positive
  have number : delay.isNaN = false := by
    simp only [Seconds.isFinite, bne_iff_ne] at finite
    simp [Seconds.isNaN, finite]
  simp [Seconds.isPositive, unsigned, notZero, number]

theorem allowance_error : |allowance - 1 / 10 ^ 6| ≤ 1 / 10 ^ 6 / 2 ^ 53 := by
  have fraction : mkRat 1 1000000 = 1 / 10 ^ 6 := by norm_num [Rat.mkRat_eq_div]
  have error := binary64_error (1 / 10 ^ 6)
  rw [abs_of_pos (show (0 : ℚ) < 1 / 10 ^ 6 by norm_num)] at error
  rwa [allowance, fraction]

theorem abs_binary64_div_sub_le {product divisor : ℚ} (low : 0 ≤ product) (positive : 0 < divisor) :
    |binary64 product / divisor - product / divisor| ≤ product / divisor / 2 ^ 53 := by
  have error := binary64_error product
  rw [abs_of_nonneg low] at error
  rw [← sub_div, abs_div, abs_of_pos positive, div_right_comm]
  gcongr

theorem abs_binary64_sub_lt {exact quotient : ℚ} (low : 0 ≤ exact) (high : exact ≤ 2 ^ 20 + 1)
    (close : |quotient - exact| ≤ exact / 2 ^ 53) :
    |binary64 (binary64 quotient - allowance) - (exact - 1 / 10 ^ 6)| < 1 / 2 ^ 31 := by
  obtain ⟨quotientLow, quotientHigh⟩ := abs_le.mp close
  obtain ⟨allowanceLow, allowanceHigh⟩ := abs_le.mp allowance_error
  have rounded := binary64_error quotient
  rw [abs_of_nonneg (show 0 ≤ quotient by linarith)] at rounded
  obtain ⟨roundedLow, roundedHigh⟩ := abs_le.mp rounded
  have difference : |binary64 quotient - allowance| ≤ 2 ^ 20 + 3 := by
    rw [abs_le]
    constructor <;> linarith
  have error := (binary64_error (binary64 quotient - allowance)).trans
    (div_le_div_of_nonneg_right difference (by norm_num))
  obtain ⟨errorLow, errorHigh⟩ := abs_le.mp error
  rw [abs_lt]
  constructor <;> linarith

section

variable {resolution count : Nat} {delay : Seconds} (one : 1 ≤ resolution)
  (word : resolution < 2 ^ 32) (some : 1 ≤ count) (few : count < 2 ^ 20)
  (nearest : delay.IsNearest (count * resolution / 1000))

include one word some few nearest

theorem value_error : |delay.value - count * resolution / 1000| ≤
    (count * resolution / 1000 : ℚ) / 2 ^ 24 := by
  have resolutionLow : (1 : ℚ) ≤ resolution := by exact_mod_cast one
  have resolutionHigh : (resolution : ℚ) ≤ 2 ^ 32 := by exact_mod_cast word.le
  have countLow : (1 : ℚ) ≤ count := by exact_mod_cast some
  have countHigh : (count : ℚ) ≤ 2 ^ 20 := by exact_mod_cast few.le
  refine nearest.error ?_ ?_
  · have product : (1 : ℚ) ≤ count * resolution := one_le_mul_of_one_le_of_one_le countLow
      resolutionLow
    calc (2 : ℚ) ^ (-126 : ℤ) ≤ 1 / 1000 := by norm_num
      _ ≤ count * resolution / 1000 := by gcongr
  · have product : (count * resolution : ℚ) ≤ 2 ^ 20 * 2 ^ 32 := by gcongr
    calc (count * resolution / 1000 : ℚ) ≤ 2 ^ 20 * 2 ^ 32 / 1000 := by gcongr
      _ < 2 ^ (127 : ℤ) := by norm_num

theorem abs_excess_le : |(new resolution).excess delay count| ≤ count / 2 ^ 24 := by
  have positive : (0 : ℚ) < resolution := by exact_mod_cast one
  have error := value_error one word some few nearest
  have scaled : (new resolution).excess delay count =
      (delay.value - count * resolution / 1000) * (1000 / resolution) := by
    rw [excess, new]
    field_simp
  rw [scaled, abs_mul, abs_of_pos (show (0 : ℚ) < 1000 / resolution by positivity)]
  calc |delay.value - count * resolution / 1000| * (1000 / resolution : ℚ)
      ≤ count * resolution / 1000 / 2 ^ 24 * (1000 / resolution) := by gcongr
    _ = count / 2 ^ 24 := by field_simp

theorem value_pos : 0 < delay.value := by
  have positive : (0 : ℚ) < count * resolution / 1000 :=
    div_pos (mul_pos (Nat.cast_pos.mpr some) (Nat.cast_pos.mpr one)) (by norm_num)
  obtain ⟨low, -⟩ := abs_le.mp (value_error one word some few nearest)
  linarith

theorem isCounted :
    ((new resolution).resolution = 0 || !delay.isFinite || !delay.isPositive) = false := by
  have positive := isPositive_of_value nearest.finite (value_pos one word some few nearest)
  have notZero : (new resolution).resolution ≠ 0 := Nat.ne_of_gt one
  simp [notZero, nearest.finite, positive]

theorem exactCyclesFor_eq : (new resolution).exactCyclesFor delay =
    if (new resolution).excess delay count ≤ 1 / 10 ^ 6 then count else count + 1 := by
  have countHigh : (count : ℚ) ≤ 2 ^ 20 := by exact_mod_cast few.le
  obtain ⟨low, high⟩ := abs_le.mp (abs_excess_le one word some few nearest)
  have near := toNat_ceil_of_near (count + (new resolution).excess delay count - 1 / 10 ^ 6) count
    (by linarith) (by linarith)
  rw [exactCyclesFor, isCounted one word some few nearest, if_neg Bool.false_ne_true,
    milliseconds_div (new resolution) delay count, near]
  congr 1
  rw [eq_iff_iff]
  constructor <;> intro within <;> linarith

/-- What the operations make of a delay is rounded up to as many cycles, unless the excess is next
to the allowance. -/
theorem exists_cyclesFor_eq : ∃ rounded : ℚ,
    |rounded - (count + (new resolution).excess delay count - 1 / 10 ^ 6)| < 1 / 2 ^ 31 ∧
      (new resolution).cyclesFor delay = if rounded ≤ count then count else count + 1 := by
  have positive : (0 : ℚ) < resolution := Nat.cast_pos.mpr one
  have milliseconds : 0 < delay.value * 1000 :=
    mul_pos (value_pos one word some few nearest) (by norm_num)
  have countHigh : (count : ℚ) ≤ 2 ^ 20 := by exact_mod_cast few.le
  obtain ⟨low, high⟩ := abs_le.mp (abs_excess_le one word some few nearest)
  have whole : delay.value * 1000 / resolution = count + (new resolution).excess delay count :=
    milliseconds_div (new resolution) delay count
  have close := abs_binary64_div_sub_le milliseconds.le positive
  have near := abs_binary64_sub_lt (div_pos milliseconds positive).le (by linarith) close
  rw [whole] at near
  refine ⟨_, near, ?_⟩
  obtain ⟨nearLow, nearHigh⟩ := abs_lt.mp near
  have ceiling := toNat_ceil_of_near _ count (by linarith) (by linarith)
  have inRange : (if binary64 (binary64 (binary64 (delay.value * 1000) / resolution) - allowance) ≤
      count then count else count + 1) ≤ Nat.pow 2 64 - 1 := by
    have large : 2 ^ 20 ≤ Nat.pow 2 64 - 1 := by decide
    split <;> omega
  rw [cyclesFor, isCounted one word some few nearest, if_neg Bool.false_ne_true]
  exact (congrArg (min · _) ceiling).trans (Nat.min_eq_left inRange)

end

/--
The cycles that cover a delay of whole cycles are as many when the delay is rounded to exceed them
by no more than the allowance, and otherwise one more. Up to 16 cycles never exceed it so much. What
the rounded operations count is never less and at most one more, and the same unless the excess is
next to the allowance.
-/
theorem cyclesFor_of_nearest {resolution count : Nat} {delay : Seconds} (one : 1 ≤ resolution)
    (word : resolution < 2 ^ 32) (some : 1 ≤ count) (few : count < 2 ^ 20)
    (nearest : delay.IsNearest (count * resolution / 1000)) :
    (new resolution).exactCyclesFor delay =
        (if (new resolution).excess delay count ≤ 1 / 10 ^ 6 then count else count + 1) ∧
      (count ≤ 16 → (new resolution).exactCyclesFor delay = count ∧
        (new resolution).cyclesFor delay = count) ∧
      ((new resolution).cyclesFor delay = count ∨ (new resolution).cyclesFor delay = count + 1) ∧
      (1 / 2 ^ 31 ≤ |(new resolution).excess delay count - 1 / 10 ^ 6| →
        (new resolution).cyclesFor delay = (new resolution).exactCyclesFor delay) := by
  have isExact := exactCyclesFor_eq one word some few nearest
  obtain ⟨rounded, near, isRounded⟩ := exists_cyclesFor_eq one word some few nearest
  obtain ⟨low, high⟩ := abs_lt.mp near
  refine ⟨isExact, fun short => ?_, ?_, fun apart => ?_⟩
  · have countHigh : (count : ℚ) ≤ 16 := by exact_mod_cast short
    obtain ⟨-, excessHigh⟩ := abs_le.mp (abs_excess_le one word some few nearest)
    rw [isExact, isRounded]
    exact ⟨if_pos (by linarith), if_pos (by linarith)⟩
  · rw [isRounded]
    split
    · exact Or.inl rfl
    · exact Or.inr rfl
  · rw [isExact, isRounded]
    rcases le_abs.mp apart with above | below
    · rw [if_neg (by linarith), if_neg (by linarith)]
    · rw [if_pos (by linarith), if_pos (by linarith)]

theorem cyclesFor_twentieth :
    Seconds.IsNearest ⟨0x3d4ccccd⟩ ((5 : Nat) * (10 : Nat) / 1000) ∧
      (new 10).exactCyclesFor ⟨0x3d4ccccd⟩ = 5 ∧ (new 10).cyclesFor ⟨0x3d4ccccd⟩ = 5 := by
  have nearest : Seconds.IsNearest ⟨0x3d4ccccd⟩ ((5 : Nat) * (10 : Nat) / 1000) :=
    Seconds.isNearest_of_close (by decide) (by decide) (by decide) (by decide +kernel)
  have covered := cyclesFor_of_nearest (by decide) (by decide) (by decide) (by decide) nearest
  exact ⟨nearest, covered.2.1 (by decide)⟩

/-- A delay of 1.1 seconds, which is 110 cycles of 10 milliseconds, is rounded up to 111. -/
theorem exactCyclesFor_ne :
    ¬∀ (resolution count : Nat) (delay : Seconds), 1 ≤ resolution → resolution < 2 ^ 32 →
      1 ≤ count → count < 2 ^ 20 → delay.IsNearest (count * resolution / 1000) →
        (new resolution).exactCyclesFor delay = count := by
  intro same
  have nearest : Seconds.IsNearest ⟨0x3f8ccccd⟩ ((110 : Nat) * (10 : Nat) / 1000) :=
    Seconds.isNearest_of_close (by decide) (by decide) (by decide) (by decide +kernel)
  have more : (new 10).exactCyclesFor ⟨0x3f8ccccd⟩ = 111 := by decide +kernel
  have equal := same 10 110 ⟨0x3f8ccccd⟩ (by decide) (by decide) (by decide) (by decide) nearest
  omega

example : let delay : Seconds := ⟨0x4300a396⟩
    |delay.value - 17 * 7567 / 1000| < 2 ^ delay.scale / 2 ^ 149 / 2 ∧
      1 / 10 ^ 6 < (new 7567).excess delay 17 := by
  decide +kernel

end RelayLogic.Clock
