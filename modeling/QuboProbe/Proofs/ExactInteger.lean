/-
  QuboProbe.Proofs.ExactInteger

  The numbers that bit patterns stand for.  A finite pattern stands for a
  rational number (`Binary64.value?`).  Below `2^52` in magnitude its exponent
  is negative, from there on its significand is at least `2^52`
  (`Binary64.dyadic_below`, `Binary64.dyadic_above`); so the test on the
  pattern finds the integers below `2^52`, all of them and nothing else
  (`Binary64.isExactInteger_iff`).
-/
import QuboProbe.Binary64
import Mathlib.Algebra.Order.Field.Power
import Mathlib.Data.Rat.Cast.Order
import Mathlib.Tactic.Positivity

namespace QuboProbe

/-- The number that is held. -/
def Dyadic.value (d : Dyadic) : ℚ := d.mantissa * 2 ^ d.exponent

theorem Dyadic.value_mul {d : Dyadic} {k : Nat} (h : d.exponent = -(k : Int)) :
    d.value * 2 ^ k = d.mantissa := by
  have hpow : (2 : ℚ) ^ k ≠ 0 := pow_ne_zero k two_ne_zero
  rw [value, h, zpow_neg, zpow_natCast, mul_assoc, inv_mul_cancel₀ hpow, mul_one]

theorem Dyadic.value_nonneg (d : Dyadic) : 0 ≤ d.value := by
  rw [value]
  positivity

namespace Binary64

/-- The number that a pattern stands for: none, if it is infinite or undefined. -/
def value? (x : Binary64) : Option ℚ :=
  if x.isFinite then some (if x.isNegative then -x.dyadic.value else x.dyadic.value) else none

variable {x : Binary64}

theorem value?_eq_some_iff {r : ℚ} :
    x.value? = some r ↔
      x.isFinite = true ∧ r = if x.isNegative then -x.dyadic.value else x.dyadic.value := by
  rw [value?]
  by_cases hfinite : x.isFinite = true
  · rw [if_pos hfinite, Option.some.injEq]
    exact ⟨fun h => ⟨hfinite, h.symm⟩, fun h => h.2.symm⟩
  · rw [if_neg hfinite]
    exact iff_of_false nofun fun h => hfinite h.1

/-! ## Magnitudes -/

/-- The pattern of `2^52` without a sign. -/
def wholeFrom : Nat := 4841369599423283200

/-- A magnitude below `2^52` has a fraction. -/
theorem dyadic_below (h : x.unsigned.toNat < wholeFrom) :
    ∃ k : Nat, 1 ≤ k ∧ x.dyadic.exponent = -(k : Int) ∧ x.dyadic.mantissa < 2 ^ 53 := by
  have hfraction : x.unsigned.toNat % leadingBit < leadingBit := Nat.mod_lt _ (by decide)
  have hexponent : x.unsigned.toNat / leadingBit < 1075 := by
    rw [leadingBit, wholeFrom] at *
    omega
  rw [dyadic, fields]
  cases he : x.unsigned.toNat / leadingBit with
  | zero => exact ⟨1074, by decide, rfl, hfraction.trans (by decide)⟩
  | succ e =>
    refine ⟨1074 - e, by omega, ?_, ?_⟩
    · dsimp only
      omega
    · dsimp only
      rw [leadingBit] at *
      omega

/-- From `2^52` on a magnitude has none. -/
theorem dyadic_above (h : wholeFrom ≤ x.unsigned.toNat) :
    ∃ k : Nat, x.dyadic.exponent = k ∧ 2 ^ 52 ≤ x.dyadic.mantissa := by
  have hexponent : 1075 ≤ x.unsigned.toNat / leadingBit := by
    rw [leadingBit, wholeFrom] at *
    omega
  rw [dyadic, fields]
  cases he : x.unsigned.toNat / leadingBit with
  | zero => omega
  | succ e =>
    refine ⟨e - 1074, ?_, Nat.le_add_left _ _⟩
    dsimp only
    omega

/-! ## Integers -/

theorem isExactInteger_eq_true_iff :
    x.isExactInteger = true ↔ x.unsigned.toNat < wholeFrom ∧
      (0 ≤ x.dyadic.exponent ∨ 2 ^ (-x.dyadic.exponent).toNat ∣ x.dyadic.mantissa) := by
  rw [isExactInteger, Bool.and_eq_true, decide_eq_true_iff, UInt64.lt_iff_toNat_lt,
    Bool.or_eq_true, decide_eq_true_iff, beq_iff_eq, Nat.dvd_iff_mod_eq_zero]
  rfl

/-- The pattern stands for an integer of a magnitude below `2^52`. -/
def IsSmallInteger (x : Binary64) : Prop := ∃ z : ℤ, |z| < 2 ^ 52 ∧ x.value? = some (z : ℚ)

/-- What is tested on the pattern is that. -/
theorem isExactInteger_iff : x.isExactInteger = true ↔ x.IsSmallInteger := by
  rw [isExactInteger_eq_true_iff]
  constructor
  · rintro ⟨hbelow, hwhole⟩
    obtain ⟨k, hk, hexponent, hmantissa⟩ := dyadic_below hbelow
    have hdvd : 2 ^ k ∣ x.dyadic.mantissa := by
      rcases hwhole with hnonneg | hdvd
      · omega
      · rwa [hexponent, neg_neg, Int.toNat_natCast] at hdvd
    obtain ⟨c, hc⟩ := hdvd
    have hvalue : x.dyadic.value = c := by
      have hmul := Dyadic.value_mul hexponent
      rw [hc, Nat.cast_mul, Nat.cast_pow, Nat.cast_ofNat, mul_comm] at hmul
      exact mul_left_cancel₀ (pow_ne_zero k two_ne_zero) hmul
    -- the significand has at most 53 bits, of which one at least is behind the point
    have hsmall : c < 2 ^ 52 := by
      have hpow : 2 ^ 1 ≤ 2 ^ k := Nat.pow_le_pow_right (by decide) hk
      have hle : 2 ^ 1 * c ≤ 2 ^ k * c := Nat.mul_le_mul_right c hpow
      omega
    have hfinite : x.isFinite = true := by
      rw [isFinite, decide_eq_true_iff, UInt64.lt_iff_toNat_lt]
      exact hbelow.trans (by decide)
    by_cases hsign : x.isNegative = true
    · refine ⟨-(c : ℤ), ?_, value?_eq_some_iff.2 ⟨hfinite, ?_⟩⟩
      · rw [abs_neg, Nat.abs_cast]
        exact_mod_cast hsmall
      · rw [if_pos hsign, hvalue, Int.cast_neg, Int.cast_natCast]
    · refine ⟨c, ?_, value?_eq_some_iff.2 ⟨hfinite, ?_⟩⟩
      · rw [Nat.abs_cast]
        exact_mod_cast hsmall
      · rw [if_neg hsign, hvalue, Int.cast_natCast]
  · rintro ⟨z, hz, hvalue⟩
    obtain ⟨-, hvalue⟩ := value?_eq_some_iff.1 hvalue
    have hmagnitude : x.dyadic.value = |z| := by
      have hnonneg := x.dyadic.value_nonneg
      rw [Int.cast_abs, hvalue]
      split
      · rw [abs_neg, abs_of_nonneg hnonneg]
      · rw [abs_of_nonneg hnonneg]
    rcases Nat.lt_or_ge x.unsigned.toNat wholeFrom with hbelow | habove
    · obtain ⟨k, -, hexponent, -⟩ := dyadic_below hbelow
      refine ⟨hbelow, .inr ?_⟩
      have hmul := Dyadic.value_mul hexponent
      rw [hmagnitude] at hmul
      have hmul' : z.natAbs * 2 ^ k = x.dyadic.mantissa := by
        rw [Int.abs_eq_natAbs] at hmul
        exact_mod_cast hmul
      rw [hexponent, neg_neg, Int.toNat_natCast, ← hmul']
      exact Nat.dvd_mul_left _ _
    · -- the magnitude would be too large
      obtain ⟨k, hexponent, hmantissa⟩ := dyadic_above habove
      have hlarge : (2 : ℚ) ^ 52 ≤ x.dyadic.value := by
        have hpow : (1 : ℚ) ≤ 2 ^ k := one_le_pow₀ one_le_two
        have hcast : (2 : ℚ) ^ 52 ≤ x.dyadic.mantissa := by exact_mod_cast hmantissa
        rw [Dyadic.value, hexponent, zpow_natCast]
        exact hcast.trans (le_mul_of_one_le_right (Nat.cast_nonneg _) hpow)
      have hsmall : ((|z| : ℤ) : ℚ) < 2 ^ 52 := by exact_mod_cast hz
      exact absurd (hmagnitude ▸ hlarge) (not_le.2 hsmall)

end Binary64

end QuboProbe
