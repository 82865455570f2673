/-
  QuboProbe.Proofs.Decimal.Literals

  Every finite number is written as a literal of the exchange format
  (`Binary64.standard_numeral`).  A layout pads the digits of a decimal with
  zeros, so the one thing that can go wrong is a zero with further zeros behind
  it.  The decimals that are found for a number are not of that kind
  (`Dyadic.exponent_shortest`): a point of a grid is not zero, and the walk
  over the grids cannot end on a grid that is coarser than the number.
-/
import QuboProbe.Binary64
import QuboProbe.Proofs.Json.Numeral
import Mathlib.Algebra.Order.Ring.Nat
import Mathlib.Tactic.Ring

namespace QuboProbe

/-! ## Layouts -/

namespace Decimal

theorem digitsOf_ne_nil (n : Nat) : digitsOf n ≠ [] := Nat.toDigits_ne_nil

/-- A number whose digits start with a zero is zero. -/
theorem eq_zero_of_head?_digitsOf {n : Nat} (h : (digitsOf n).head? = some '0') : n = 0 := by
  have hvalue := valueOfDigits_digitsOf n
  rw [head?_digitsOf h] at hvalue
  exact hvalue.symm

variable {d : Decimal} (hd : d.digits = 0 → d.exponent ≤ 0)

include hd in
theorem standard_positional (keepPoint negative : Bool) :
    (d.positional keepPoint negative).Standard := by
  have hdigit : ∀ c ∈ digitsOf d.digits, c.isDigit = true := fun c => isDigit_digitsOf
  have hzero : ∀ c ∈ ['0'], c.isDigit = true := fun c hc => List.mem_singleton.1 hc ▸ rfl
  rw [positional]
  -- the point stands behind the digits, between them or before them
  by_cases hexponent : 0 ≤ d.exponent
  · rw [if_pos hexponent]
    refine ⟨fun c hc => ?_, fun c hc => ?_, ?_, fun hlead => ?_⟩
    · rcases List.mem_append.1 hc with hc | hc
      · exact hdigit c hc
      · exact hzero c (List.mem_singleton.2 (List.eq_of_mem_replicate hc))
    · cases keepPoint with
      | true => exact hzero c hc
      | false => exact absurd hc List.not_mem_nil
    · exact List.append_ne_nil_of_left_ne_nil (digitsOf_ne_nil _) _
    · -- a zero has no further zeros behind it
      have hhead : (digitsOf d.digits).head? = some '0' := by
        obtain ⟨c, rest, hdigits⟩ := List.exists_cons_of_ne_nil (digitsOf_ne_nil d.digits)
        rw [hdigits] at hlead ⊢
        exact hlead
      have hnone : d.exponent.toNat = 0 := by
        have := hd (eq_zero_of_head?_digitsOf hhead)
        omega
      show digitsOf d.digits ++ List.replicate d.exponent.toNat '0' = ['0']
      rw [head?_digitsOf hhead, hnone, List.replicate_zero, List.append_nil]
  · rw [if_neg hexponent]
    have hplaces : 0 < (-d.exponent).toNat := by omega
    by_cases hinside : (-d.exponent).toNat < (digitsOf d.digits).length
    · dsimp only
      rw [if_pos hinside]
      refine ⟨fun c hc => hdigit c (List.mem_of_mem_take hc),
        fun c hc => hdigit c (List.mem_of_mem_drop hc), fun hnil => ?_, fun hlead => ?_⟩
      · have hlength := congrArg List.length hnil
        rw [List.length_take, List.length_nil] at hlength
        omega
      · -- the point stands behind the first digit or later, so a zero would be alone
        have hhead : (digitsOf d.digits).head? = some '0' := by
          rwa [List.head?_take, if_neg (by omega)] at hlead
        rw [head?_digitsOf hhead, List.length_singleton] at hinside
        omega
    · dsimp only
      rw [if_neg hinside]
      refine ⟨hzero, fun c hc => ?_, List.cons_ne_nil _ _, fun _ => rfl⟩
      rcases List.mem_append.1 hc with hc | hc
      · exact hzero c (List.mem_singleton.2 (List.eq_of_mem_replicate hc))
      · exact hdigit c hc

include hd in
/-- A decimal is laid out as a literal of the format, whatever the style. -/
theorem standard_numeral (style : Style) (negative : Bool) :
    (d.numeral style negative).Standard := by
  have hdigit : ∀ c ∈ digitsOf d.digits, c.isDigit = true := fun c => isDigit_digitsOf
  rw [numeral]
  refine iteInduction (fun _ => ?_) fun _ => ?_
  · exact standard_positional hd style.keepPoint negative
  · cases hdigits : digitsOf d.digits with
    | nil => exact absurd hdigits (digitsOf_ne_nil _)
    | cons c rest =>
      rw [hdigits, List.forall_mem_cons] at hdigit
      refine ⟨List.forall_mem_singleton.2 hdigit.1, hdigit.2, List.cons_ne_nil _ _, fun hlead => ?_⟩
      exact congrArg (fun c => [c]) (Option.some.inj hlead)

end Decimal

/-! ## Decimals of dyadic numbers -/

theorem le_roundDiv (tie : Tie) (num den : Nat) : num / den ≤ roundDiv tie num den := by
  unfold roundDiv
  dsimp only
  split
  · exact Nat.le_refl _
  · split
    · exact Nat.le_succ _
    · cases tie with
      | up => exact Nat.le_succ _
      | even =>
        dsimp only
        split
        · exact Nat.le_refl _
        · exact Nat.le_succ _

namespace Dyadic

/-- A grid point that is found is not zero. -/
theorem gridPoint?_pos {tie : Tie} {d : Dyadic} {k : Int} {c : Nat}
    (h : d.gridPoint? tie k = some c) : 0 < c := by
  rw [gridPoint?] at h
  dsimp only at h
  split at h
  · rename_i hbelow _
    simp only [Bool.and_eq_true, decide_eq_true_eq] at hbelow
    obtain rfl := Option.some.inj h
    exact Nat.lt_of_lt_of_le hbelow.1 (le_roundDiv tie _ _)
  · rename_i hbelow _
    simp only [Bool.and_eq_true, decide_eq_true_eq] at hbelow
    obtain rfl := Option.some.inj h
    exact hbelow.1
  · obtain rfl := Option.some.inj h
    exact Nat.succ_pos _
  · cases h

/-- The whole part of a number on a grid, zero if the grid is coarser than the number. -/
def wholePart (d : Dyadic) (k : Int) : Nat :=
  (scaled d.mantissa d.exponent k).1 / (scaled d.mantissa d.exponent k).2

/-- The walk comes to zero only on a grid of at most one, provided that it cannot end on a coarser
grid with a whole part of zero. -/
theorem exponent_search {tie : Tie} {d : Dyadic} (fuel : Nat) (k : Int)
    (hend : 0 < k - fuel → 0 < d.wholePart (k - fuel))
    (hzero : (search tie d fuel k).digits = 0) : (search tie d fuel k).exponent ≤ 0 := by
  -- a point that is found ends the walk and is not zero, so a zero comes from the last grid
  induction fuel generalizing k with
  | zero =>
    simp only [Nat.cast_zero, Int.sub_zero] at hend
    by_contra hpos
    have hwhole := hend (by simpa [search] using hpos)
    rw [search] at hzero
    exact absurd hzero (Nat.ne_of_gt hwhole)
  | succ fuel ih =>
    rw [search] at hzero ⊢
    cases hpoint : d.gridPoint? tie k with
    | some c =>
      rw [hpoint] at hzero
      exact absurd hzero (Nat.ne_of_gt (gridPoint?_pos hpoint))
    | none =>
      rw [hpoint] at hzero
      refine ih (k - 1) (fun hk => ?_) hzero
      have hgrid : k - 1 - (fuel : Int) = k - ((fuel + 1 : Nat) : Int) := by omega
      rw [hgrid] at hk ⊢
      exact hend hk

/-- A thousand is less than `2^10`. -/
theorem pow_ten_le (k : Nat) : 10 ^ k ≤ 2 ^ (10 * (k / 3) + 7) := by
  have hthree : (10 ^ 3) ^ (k / 3) ≤ (2 ^ 10) ^ (k / 3) := Nat.pow_le_pow_left (by decide) _
  have hrest : 10 ^ (k % 3) ≤ 10 ^ 2 := Nat.pow_le_pow_right (by decide) (by omega)
  calc 10 ^ k = 10 ^ (3 * (k / 3) + k % 3) := by rw [Nat.div_add_mod]
    _ = (10 ^ 3) ^ (k / 3) * 10 ^ (k % 3) := by rw [Nat.pow_add, Nat.pow_mul]
    _ ≤ (2 ^ 10) ^ (k / 3) * 2 ^ 7 := Nat.mul_le_mul hthree (hrest.trans (by decide))
    _ = 2 ^ (10 * (k / 3) + 7) := by rw [← Nat.pow_mul, ← Nat.pow_add]

/-- The grids of a walk are not coarser than a number that is not too large: thirty digits lie
between the first grid and the last. -/
theorem wholePart_pos {d : Dyadic} (hmantissa : d.mantissa ≠ 0)
    (hlarge : (Nat.log2 d.mantissa : Int) + d.exponent ≤ 10000) (hk : 0 < d.topGrid - 32) :
    0 < d.wholePart (d.topGrid - 32) := by
  have hbit : 2 ^ Nat.log2 d.mantissa ≤ d.mantissa := Nat.log2_self_le hmantissa
  rw [topGrid] at hk
  obtain ⟨k, hgrid⟩ : ∃ k : Nat, d.topGrid - 32 = k := ⟨(d.topGrid - 32).toNat, by
    rw [topGrid]
    omega⟩
  rw [hgrid]
  rw [topGrid] at hgrid
  rw [wholePart, scaled]
  have hneg : (-(k : Int)).toNat = 0 := by omega
  simp only [Nat.pow_eq, hneg, Nat.pow_zero, Nat.mul_one, Int.toNat_natCast]
  refine Nat.div_pos ?_ (Nat.mul_pos (Nat.pow_pos (by decide)) (Nat.pow_pos (by decide)))
  -- both sides are measured by powers of two, of which the exponents are linear
  calc 2 ^ (-d.exponent).toNat * 10 ^ k
      ≤ 2 ^ (-d.exponent).toNat * 2 ^ (10 * (k / 3) + 7) := Nat.mul_le_mul_left _ (pow_ten_le k)
    _ = 2 ^ ((-d.exponent).toNat + (10 * (k / 3) + 7)) := (Nat.pow_add ..).symm
    _ ≤ 2 ^ (Nat.log2 d.mantissa + d.exponent.toNat) :=
        Nat.pow_le_pow_right (by decide) (by omega)
    _ = 2 ^ Nat.log2 d.mantissa * 2 ^ d.exponent.toNat := by rw [Nat.pow_add]
    _ ≤ d.mantissa * 2 ^ d.exponent.toNat := Nat.mul_le_mul_right _ hbit

/-- The decimal of a number that is not too large has no zeros behind a zero. -/
theorem exponent_shortest {tie : Tie} {d : Dyadic}
    (hlarge : (Nat.log2 d.mantissa : Int) + d.exponent ≤ 10000)
    (hzero : (d.shortest tie).digits = 0) : (d.shortest tie).exponent ≤ 0 := by
  rw [shortest] at hzero ⊢
  by_cases hmantissa : d.mantissa = 0
  · rw [if_pos hmantissa]
  · rw [if_neg hmantissa] at hzero ⊢
    exact exponent_search 32 d.topGrid (wholePart_pos hmantissa hlarge) hzero

end Dyadic

/-! ## Floats -/

namespace Binary64

/-- The magnitude of a finite number is less than `2^1024`. -/
theorem dyadic_bound {x : Binary64} (hx : x.isFinite = true) :
    (Nat.log2 x.dyadic.mantissa : Int) + x.dyadic.exponent ≤ 10000 := by
  have hbits : x.unsigned.toNat < 0x7ff0000000000000 :=
    UInt64.lt_iff_toNat_lt.1 (of_decide_eq_true hx)
  have hlog {n : Nat} (hn : n < 2 ^ 53) : Nat.log2 n < 53 := by
    by_cases hzero : n = 0
    · subst hzero
      decide
    · exact (Nat.log2_lt hzero).2 hn
  rw [dyadic, fields]
  have hfraction : x.unsigned.toNat % leadingBit < leadingBit := Nat.mod_lt _ (by decide)
  have hexponent : x.unsigned.toNat / leadingBit < 2047 := by
    rw [leadingBit]
    omega
  cases he : x.unsigned.toNat / leadingBit with
  | zero =>
    have := hlog (n := x.unsigned.toNat % leadingBit) (by rw [leadingBit] at *; omega)
    dsimp only
    omega
  | succ e =>
    have := hlog (n := x.unsigned.toNat % leadingBit + leadingBit) (by rw [leadingBit] at *; omega)
    dsimp only
    omega

/-- A finite number is written as a literal of the format. -/
theorem standard_numeral (style : Style) (tie : Tie) {x : Binary64} (hx : x.isFinite = true) :
    (x.numeral style tie).Standard :=
  Decimal.standard_numeral (Dyadic.exponent_shortest (dyadic_bound hx)) style x.isNegative

end Binary64

end QuboProbe
