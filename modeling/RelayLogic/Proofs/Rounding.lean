import RelayLogic.Decimal.Rounding
import Mathlib.Algebra.Order.Field.Basic
import Mathlib.Tactic.FieldSimp
import Mathlib.Tactic.Linarith
import Mathlib.Tactic.Positivity
import Mathlib.Tactic.Ring

/-!
The error of rounding to the binary64 format: at most half of a unit in the last of 53 places.
-/

namespace RelayLogic.Decimal

theorem two_zpow_mul_pow {exponent total : Int} {places : Nat} (sum : exponent + places = total) :
    (2 : ℚ) ^ exponent * 2 ^ places = 2 ^ total := by
  rw [← sum, zpow_add₀ two_ne_zero, zpow_natCast]

theorem scaleBinary_pos (num : Nat) {den : Nat} (positive : 0 < den) (exponent : Int) :
    0 < (scaleBinary num den exponent).2 := by
  unfold scaleBinary
  split
  · exact positive
  · exact Nat.mul_pos positive (Nat.pow_pos (by decide))

theorem scaleBinary_div (num den : Nat) (exponent : Int) :
    ((scaleBinary num den exponent).1 / (scaleBinary num den exponent).2 : ℚ) =
      num / den * 2 ^ exponent := by
  unfold scaleBinary
  split
  next upward =>
    obtain ⟨places, rfl⟩ := Int.eq_ofNat_of_zero_le upward
    simp only [Int.toNat_natCast, Nat.pow_eq, Nat.cast_mul, Nat.cast_pow, Nat.cast_ofNat,
      zpow_natCast]
    ring
  next downward =>
    obtain ⟨places, same⟩ := Int.eq_ofNat_of_zero_le (a := -exponent) (by omega)
    obtain rfl : exponent = -(places : Int) := by omega
    simp only [neg_neg, Int.toNat_natCast, Nat.pow_eq, Nat.cast_mul, Nat.cast_pow, Nat.cast_ofNat,
      zpow_neg, zpow_natCast]
    rw [div_mul_eq_div_div, div_eq_mul_inv _ ((2 : ℚ) ^ places)]

theorem two_zpow_floorLog2_le {num den : Nat} (numPositive : 0 < num) (denPositive : 0 < den) :
    (2 : ℚ) ^ floorLog2 num den ≤ num / den := by
  have positive : (0 : ℚ) < den := Nat.cast_pos.mpr denPositive
  let guess : Int := (num.log2 : Int) - den.log2
  have unit := scaleBinary_pos num denPositive (-guess)
  have scaled := scaleBinary_div num den (-guess)
  have cases : floorLog2 num den = if (scaleBinary num den (-guess)).2 ≤
      (scaleBinary num den (-guess)).1 then guess else guess - 1 := rfl
  rw [cases]
  split
  next enough =>
    have one : (1 : ℚ) ≤ num / den * 2 ^ (-guess) := by
      rw [← scaled, one_le_div (Nat.cast_pos.mpr unit)]
      exact Nat.cast_le.mpr enough
    rw [zpow_neg, ← div_eq_mul_inv, one_le_div (zpow_pos two_pos guess)] at one
    exact one
  next =>
    -- The powers below the numerator and above the denominator leave one place to spare.
    have above : (2 : ℚ) ^ num.log2 ≤ num := by
      exact_mod_cast Nat.log2_self_le (Nat.pos_iff_ne_zero.mp numPositive)
    have below : (den : ℚ) < 2 ^ (den.log2 + 1) := by
      exact_mod_cast Nat.lt_log2_self
    rw [le_div_iff₀ positive]
    have split : (2 : ℚ) ^ (guess - 1) * 2 ^ (den.log2 + 1) = 2 ^ num.log2 := by
      rw [two_zpow_mul_pow (show guess - 1 + (den.log2 + 1 : Nat) = (num.log2 : Int) by omega),
        zpow_natCast]
    calc (2 : ℚ) ^ (guess - 1) * den ≤ 2 ^ (guess - 1) * 2 ^ (den.log2 + 1) :=
          mul_le_mul_of_nonneg_left below.le (zpow_pos two_pos _).le
      _ = 2 ^ num.log2 := split
      _ ≤ num := above

theorem roundQuotient_error (num : Nat) {den : Nat} (positive : 0 < den) :
    |(roundQuotient num den : ℚ) - num / den| ≤ 1 / 2 := by
  have denPositive : (0 : ℚ) < den := Nat.cast_pos.mpr positive
  have parts := Nat.div_add_mod num den
  have rest := Nat.mod_lt num positive
  have bounds : 2 * num ≤ 2 * (den * roundQuotient num den) + den ∧
      2 * (den * roundQuotient num den) ≤ 2 * num + den := by
    unfold roundQuotient
    simp only
    generalize num / den = quotient at *
    generalize num % den = remainder at *
    split
    next upward =>
      rw [Nat.mul_add, Nat.mul_one]
      simp only [Bool.or_eq_true, decide_eq_true_eq, Bool.and_eq_true] at upward
      omega
    next downward =>
      simp only [Bool.or_eq_true, decide_eq_true_eq, Bool.and_eq_true, not_or] at downward
      omega
  have lower : (2 * num : ℚ) ≤ 2 * (den * roundQuotient num den) + den := by
    exact_mod_cast bounds.1
  have upper : (2 * (den * roundQuotient num den) : ℚ) ≤ 2 * num + den := by
    exact_mod_cast bounds.2
  have whole : (roundQuotient num den : ℚ) - num / den =
      (den * roundQuotient num den - num) / den := by
    field_simp
  rw [whole, abs_div, abs_of_pos denPositive, div_le_iff₀ denPositive, abs_le]
  constructor <;> linarith

theorem binary64_eq (value : ℚ) (exponent : Int)
    (isExponent : exponent = floorLog2 value.num.natAbs value.den - 52) :
    binary64 value = value.num.sign *
      (roundQuotient (scaleBinary value.num.natAbs value.den (-exponent)).1
        (scaleBinary value.num.natAbs value.den (-exponent)).2 * 2 ^ exponent) := by
  have unfolded : binary64 value = mkRat (value.num.sign *
      (scaleBinary (roundQuotient (scaleBinary value.num.natAbs value.den (-exponent)).1
        (scaleBinary value.num.natAbs value.den (-exponent)).2) 1 exponent).1)
      (scaleBinary (roundQuotient (scaleBinary value.num.natAbs value.den (-exponent)).1
        (scaleBinary value.num.natAbs value.den (-exponent)).2) 1 exponent).2 := by
    rw [isExponent]
    rfl
  have scaled := scaleBinary_div (roundQuotient (scaleBinary value.num.natAbs value.den
    (-exponent)).1 (scaleBinary value.num.natAbs value.den (-exponent)).2) 1 exponent
  rw [Nat.cast_one, div_one] at scaled
  rw [unfolded, Rat.mkRat_eq_div, ← scaled]
  push_cast
  ring

/-- The error is at most half of a unit in the last place, and the first place is not above the
number. -/
theorem exists_magnitude {value : ℚ} (nonzero : value ≠ 0) : ∃ magnitude : ℚ,
    binary64 value = value.num.sign * magnitude ∧ |magnitude - (|value|)| ≤ |value| / 2 ^ 53 := by
  obtain ⟨exponent, isExponent⟩ : ∃ exponent, exponent =
    floorLog2 value.num.natAbs value.den - 52 := ⟨_, rfl⟩
  refine ⟨_, binary64_eq value exponent isExponent, ?_⟩
  have numPositive : 0 < value.num.natAbs := Int.natAbs_pos.mpr (Rat.num_ne_zero.mpr nonzero)
  have unit := scaleBinary_pos value.num.natAbs value.den_pos (-exponent)
  have scaled := scaleBinary_div value.num.natAbs value.den (-exponent)
  have rounded := roundQuotient_error (scaleBinary value.num.natAbs value.den (-exponent)).1 unit
  have first := two_zpow_floorLog2_le numPositive value.den_pos
  have place : (0 : ℚ) < 2 ^ exponent := zpow_pos two_pos exponent
  generalize (roundQuotient (scaleBinary value.num.natAbs value.den (-exponent)).1
    (scaleBinary value.num.natAbs value.den (-exponent)).2 : ℚ) = quotient at rounded ⊢
  rw [scaled, zpow_neg] at rounded
  have absolute : |value| = value.num.natAbs / value.den := by
    rw [Rat.abs_def, Rat.divInt_eq_div, Int.cast_natCast, Int.cast_natCast]
  rw [← absolute] at rounded first
  have half : |quotient * 2 ^ exponent - (|value|)| ≤ 2 ^ exponent / 2 := by
    have whole : quotient * 2 ^ exponent - |value| =
        (quotient - |value| * (2 ^ exponent)⁻¹) * 2 ^ exponent := by
      field_simp
    rw [whole, abs_mul, abs_of_pos place, div_eq_mul_one_div, mul_comm (2 ^ exponent : ℚ)]
    exact mul_le_mul_of_nonneg_right rounded place.le
  have last : (2 : ℚ) ^ exponent * 2 ^ 52 ≤ |value| := by
    have sum : exponent + (52 : Nat) = floorLog2 value.num.natAbs value.den := by omega
    rwa [two_zpow_mul_pow sum]
  rw [le_div_iff₀ (by positivity)]
  linarith

theorem binary64_error (value : ℚ) : |binary64 value - value| ≤ |value| / 2 ^ 53 := by
  rcases eq_or_ne value 0 with rfl | nonzero
  · simp [binary64, Rat.mkRat_eq_div]
  obtain ⟨magnitude, isRounded, close⟩ := exists_magnitude nonzero
  rw [isRounded]
  rcases lt_or_gt_of_ne nonzero with negative | positive
  · have sign : value.num.sign = -1 := Int.sign_eq_neg_one_of_neg (Rat.num_neg.mpr negative)
    have flipped : ((value.num.sign : ℤ) : ℚ) * magnitude - value = -(magnitude - |value|) := by
      rw [sign, abs_of_neg negative]
      push_cast
      ring
    rwa [flipped, abs_neg]
  · have sign : value.num.sign = 1 := Int.sign_eq_one_of_pos (Rat.num_pos.mpr positive)
    rw [sign, Int.cast_one, one_mul]
    rwa [abs_of_pos positive] at close ⊢

end RelayLogic.Decimal
