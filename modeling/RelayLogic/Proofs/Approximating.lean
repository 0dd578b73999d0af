import RelayLogic.Proofs.Rounding
import RelayLogic.Seconds
import Mathlib.Algebra.Order.Round
import Mathlib.Data.Int.Log
import Mathlib.Data.Rat.Floor
import Mathlib.Tactic.FieldSimp
import Mathlib.Tactic.Linarith
import Mathlib.Tactic.Positivity
import Mathlib.Tactic.Ring

/-!
Binary32 numbers nearest to a fraction. They are off by no more than half of a unit in the last of
24 places.
-/

namespace RelayLogic.Seconds

variable {delay other : Seconds} {exact : ℚ}

/-- Whether a number is the one nearest to a fraction, of two the one with the even significand. -/
structure IsNearest (delay : Seconds) (exact : ℚ) : Prop where
  finite : delay.isFinite
  least : ∀ other : Seconds, other.isFinite → |delay.value - exact| ≤ |other.value - exact|
  even : ∀ other : Seconds, other.isFinite → other.value ≠ delay.value →
    |other.value - exact| = |delay.value - exact| → delay.significand % 2 = 0

/-- The magnitude in units of 2⁻¹⁴⁹. -/
def units (delay : Seconds) : Nat :=
  delay.significand * 2 ^ delay.scale

theorem value_of_unsigned (unsigned : delay.signed = false) :
    delay.value = delay.units / 2 ^ 149 := by
  simp only [value, unsigned, Bool.false_eq_true, ↓reduceIte, Rat.mkRat_eq_div, units, Nat.pow_eq]
  push_cast
  rfl

theorem value_of_signed (signed : delay.signed = true) :
    delay.value = -(delay.units / 2 ^ 149) := by
  simp only [value, signed, ↓reduceIte, Rat.mkRat_eq_div, units, Nat.pow_eq]
  push_cast
  rfl

theorem exists_units {mantissa exponent : Nat} (low : 2 ^ 23 ≤ mantissa) (high : mantissa < 2 ^ 24)
    (first : 0 < exponent) (last : exponent < 255) :
    ∃ delay : Seconds, delay.isFinite ∧ delay.signed = false ∧
      delay.units = mantissa * 2 ^ (exponent - 1) := by
  let bits : Nat := exponent * 2 ^ 23 + (mantissa - 2 ^ 23)
  have isBits : (UInt32.ofNat bits).toNat = exponent * 2 ^ 23 + (mantissa - 2 ^ 23) := by
    rw [UInt32.toNat_ofNat']
    exact Nat.mod_eq_of_lt (by omega)
  have isExponent : (Seconds.mk (UInt32.ofNat bits)).exponentField = exponent := by
    rw [exponentField, isBits]
    simp only [Nat.pow_eq]
    omega
  have isFraction : (Seconds.mk (UInt32.ofNat bits)).fractionField = mantissa - 2 ^ 23 := by
    rw [fractionField, isBits]
    simp only [Nat.pow_eq]
    omega
  refine ⟨⟨UInt32.ofNat bits⟩, ?_, ?_, ?_⟩
  · rw [isFinite, isExponent]
    simp
    omega
  · rw [signed, isBits]
    simp only [Nat.pow_eq, decide_eq_false_iff_not]
    omega
  · rw [units, significand, scale, isExponent, isFraction, if_neg (by omega), Nat.pow_eq,
      Nat.sub_add_cancel low]

theorem exists_value {mantissa exponent : Nat} (low : 2 ^ 23 ≤ mantissa) (high : mantissa ≤ 2 ^ 24)
    (first : 0 < exponent) (last : exponent < 254) : ∃ delay : Seconds, delay.isFinite ∧
      delay.value = mantissa * 2 ^ (exponent - 1) / 2 ^ 149 := by
  rcases Nat.lt_or_eq_of_le high with below | rfl
  · obtain ⟨delay, finite, unsigned, isUnits⟩ := exists_units low below first (by omega)
    refine ⟨delay, finite, ?_⟩
    rw [value_of_unsigned unsigned, isUnits]
    push_cast
    rfl
  · obtain ⟨delay, finite, unsigned, isUnits⟩ := exists_units (Nat.le_refl (2 ^ 23))
      (by decide) (show 0 < exponent + 1 by omega) (by omega)
    refine ⟨delay, finite, ?_⟩
    have powers : 2 ^ 23 * 2 ^ exponent = 2 ^ 24 * 2 ^ (exponent - 1) := by
      obtain ⟨before, rfl⟩ := Nat.exists_eq_succ_of_ne_zero (Nat.pos_iff_ne_zero.mp first)
      rw [Nat.succ_eq_add_one, Nat.add_sub_cancel, Nat.pow_succ]
      ring
    rw [value_of_unsigned unsigned, isUnits, Nat.add_sub_cancel, powers]
    push_cast
    rfl

theorem exists_mantissa {scaled : ℚ} (low : 2 ^ 23 ≤ scaled) (high : scaled < 2 ^ 24) :
    ∃ mantissa : Nat, 2 ^ 23 ≤ mantissa ∧ mantissa ≤ 2 ^ 24 ∧ |mantissa - scaled| ≤ 1 / 2 := by
  have rounded := abs_sub_round scaled
  obtain ⟨left, right⟩ := abs_le.mp rounded
  have atLeast : 2 ^ 23 ≤ round scaled := by
    have close : ((2 ^ 23 - 1 : ℤ) : ℚ) < round scaled := by
      push_cast
      linarith
    have := Int.cast_lt.mp close
    omega
  have atMost : round scaled ≤ 2 ^ 24 := by
    have close : (round scaled : ℚ) < ((2 ^ 24 + 1 : ℤ) : ℚ) := by
      push_cast
      linarith
    have := Int.cast_lt.mp close
    omega
  obtain ⟨mantissa, isMantissa⟩ := Int.eq_ofNat_of_zero_le (show 0 ≤ round scaled by omega)
  rw [isMantissa] at atLeast atMost
  rw [isMantissa, Int.cast_natCast, abs_sub_comm] at rounded
  exact ⟨mantissa, by exact_mod_cast atLeast, by exact_mod_cast atMost, rounded⟩

theorem exists_close (low : (2 : ℚ) ^ (-126 : ℤ) ≤ exact) (high : exact < 2 ^ (127 : ℤ)) :
    ∃ delay : Seconds, delay.isFinite ∧ |delay.value - exact| ≤ exact / 2 ^ 24 := by
  have positive : 0 < exact := lt_of_lt_of_le (zpow_pos two_pos _) low
  obtain ⟨place, isPlace⟩ : ∃ place, place = Int.log 2 exact := ⟨_, rfl⟩
  have below : (2 : ℚ) ^ place ≤ exact := isPlace ▸ Int.zpow_log_le_self one_lt_two positive
  have above : exact < (2 : ℚ) ^ (place + 1) :=
    isPlace ▸ Int.lt_zpow_succ_log_self one_lt_two exact
  have least : -126 ≤ place := isPlace ▸ (Int.zpow_le_iff_le_log one_lt_two positive).mp low
  have most : place < 127 := isPlace ▸ (Int.lt_zpow_iff_log_lt one_lt_two positive).mp high
  -- The last of 24 places.
  obtain ⟨last, isLast⟩ : ∃ last : ℚ, last = 2 ^ (place - 23) := ⟨_, rfl⟩
  have lastPositive : 0 < last := isLast ▸ zpow_pos two_pos _
  have first : last * 2 ^ 23 = 2 ^ place := by
    rw [isLast, Decimal.two_zpow_mul_pow (show place - 23 + (23 : Nat) = place by omega)]
  have second : last * 2 ^ 24 = 2 ^ (place + 1) := by
    rw [isLast, Decimal.two_zpow_mul_pow (show place - 23 + (24 : Nat) = place + 1 by omega)]
  have scaledLow : (2 : ℚ) ^ 23 ≤ exact / last := by
    rw [le_div_iff₀ lastPositive]
    linarith
  have scaledHigh : exact / last < 2 ^ 24 := by
    rw [div_lt_iff₀ lastPositive]
    linarith
  obtain ⟨mantissa, atLeast, atMost, half⟩ := exists_mantissa scaledLow scaledHigh
  obtain ⟨exponent, isExponent⟩ := Int.eq_ofNat_of_zero_le (show 0 ≤ place + 126 by omega)
  obtain ⟨delay, finite, isValue⟩ := exists_value atLeast atMost (show 0 < exponent + 1 by omega)
    (show exponent + 1 < 254 by omega)
  refine ⟨delay, finite, ?_⟩
  have isScaled : delay.value = mantissa * last := by
    have sum : place - 23 + (149 : Nat) = (exponent : Int) := by omega
    have power : last * 2 ^ 149 = 2 ^ exponent := by
      rw [isLast, Decimal.two_zpow_mul_pow sum, zpow_natCast]
    rw [isValue, Nat.add_sub_cancel, ← power, ← mul_assoc, mul_div_cancel_right₀ _ (by positivity)]
  have split : mantissa * last - exact = (mantissa - exact / last) * last := by
    field_simp
  rw [isScaled, split, abs_mul, abs_of_pos lastPositive, le_div_iff₀ (by positivity)]
  calc |(mantissa : ℚ) - exact / last| * last * 2 ^ 24 ≤ 1 / 2 * last * 2 ^ 24 := by gcongr
    _ = last * 2 ^ 23 := by ring
    _ = 2 ^ place := first
    _ ≤ exact := below

/-- What is nearest is off by at most half of a unit in the last place. -/
theorem IsNearest.error (nearest : delay.IsNearest exact) (low : (2 : ℚ) ^ (-126 : ℤ) ≤ exact)
    (high : exact < 2 ^ (127 : ℤ)) : |delay.value - exact| ≤ exact / 2 ^ 24 := by
  obtain ⟨other, finite, close⟩ := exists_close low high
  exact (nearest.least other finite).trans close

theorem significand_lt (delay : Seconds) : delay.significand < 2 ^ 24 := by
  have bound : delay.fractionField < 2 ^ 23 := Nat.mod_lt _ (by decide)
  unfold significand
  split
  · omega
  · rw [Nat.pow_eq]
    omega

theorem lt_significand (inside : delay.fractionField ≠ 0) (normal : 0 < delay.scale) :
    2 ^ 23 < delay.significand := by
  have notZero : delay.exponentField ≠ 0 := by
    intro zero
    simp [scale, zero] at normal
  rw [significand, if_neg notZero, Nat.pow_eq]
  omega

theorem units_dist (inside : delay.fractionField ≠ 0) (apart : other.units ≠ delay.units) :
    delay.units + 2 ^ delay.scale ≤ other.units ∨ other.units + 2 ^ delay.scale ≤ delay.units := by
  rcases Nat.lt_or_ge other.scale delay.scale with finer | coarser
  · right
    have least := lt_significand inside (Nat.zero_lt_of_lt finer)
    calc other.units + 2 ^ delay.scale ≤ 2 ^ 24 * 2 ^ other.scale + 2 ^ delay.scale :=
          Nat.add_le_add_right (Nat.mul_le_mul_right _ other.significand_lt.le) _
      _ = 2 ^ 23 * 2 ^ (other.scale + 1) + 2 ^ delay.scale := by ring
      _ ≤ 2 ^ 23 * 2 ^ delay.scale + 2 ^ delay.scale := by
          gcongr
          · decide
          · exact finer
      _ = (2 ^ 23 + 1) * 2 ^ delay.scale := by ring
      _ ≤ delay.units := Nat.mul_le_mul_right _ least
  · obtain ⟨places, same⟩ := Nat.exists_eq_add_of_le coarser
    have whole : other.units = other.significand * 2 ^ places * 2 ^ delay.scale := by
      rw [units, same]
      ring
    rw [whole] at apart ⊢
    have different : other.significand * 2 ^ places ≠ delay.significand :=
      fun equal => apart (by rw [equal, units])
    rcases Nat.lt_or_gt_of_ne different with less | more
    · right
      rw [units, ← Nat.succ_mul]
      exact Nat.mul_le_mul_right _ less
    · left
      rw [units, ← Nat.succ_mul]
      exact Nat.mul_le_mul_right _ more

theorem value_dist (unsigned : delay.signed = false) (inside : delay.fractionField ≠ 0)
    (apart : other.value ≠ delay.value) :
    (2 : ℚ) ^ delay.scale / 2 ^ 149 ≤ |other.value - delay.value| := by
  rw [value_of_unsigned unsigned] at apart ⊢
  cases negative : other.signed with
  | true =>
      have least : 1 ≤ delay.significand := by
        unfold significand
        split <;> omega
      have units : (2 : ℚ) ^ delay.scale ≤ delay.units := by
        exact_mod_cast Nat.le_mul_of_pos_left (2 ^ delay.scale) least
      rw [value_of_signed negative, ← neg_add', abs_neg, ← add_div, abs_of_nonneg (by positivity)]
      gcongr
      exact units.trans (le_add_of_nonneg_left (Nat.cast_nonneg _))
  | false =>
      rw [value_of_unsigned negative] at apart ⊢
      have different : other.units ≠ delay.units := fun equal => apart (by rw [equal])
      rw [← sub_div, abs_div, abs_of_pos (show (0 : ℚ) < 2 ^ 149 by positivity)]
      gcongr
      rw [le_abs]
      rcases units_dist inside different with above | below
      · left
        have cast : (delay.units + 2 ^ delay.scale : ℚ) ≤ other.units := by exact_mod_cast above
        linarith
      · right
        have cast : (other.units + 2 ^ delay.scale : ℚ) ≤ delay.units := by exact_mod_cast below
        linarith

/-- A number that is no power of two is nearest to all that is within half of a unit in its last
place. -/
theorem isNearest_of_close (finite : delay.isFinite) (unsigned : delay.signed = false)
    (inside : delay.fractionField ≠ 0)
    (close : |delay.value - exact| < 2 ^ delay.scale / 2 ^ 149 / 2) : delay.IsNearest exact := by
  have others : ∀ other : Seconds, other.value ≠ delay.value →
      |delay.value - exact| < |other.value - exact| := by
    intro other apart
    have far := value_dist unsigned inside apart
    have triangle := abs_sub_le other.value exact delay.value
    rw [abs_sub_comm exact] at triangle
    linarith
  refine ⟨finite, fun other _ => ?_, fun other _ apart equal => ?_⟩
  · by_cases same : other.value = delay.value
    · rw [same]
    · exact (others other same).le
  · exact absurd equal (others other apart).ne'

end RelayLogic.Seconds
