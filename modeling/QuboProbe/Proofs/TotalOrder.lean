/-
  QuboProbe.Proofs.TotalOrder

  The total order of floating point numbers, from their bit patterns.  A
  pattern is a magnitude and a sign bit (`Binary64.bits_toNat`); taken for a
  signed word, in which the other bits are turned round under a set sign bit, it
  stands at its place in the order (`Binary64.toInt_totalKey`).  Different
  patterns have different places, and the undefined values stand at both ends:
  behind all numbers without a sign, before all numbers with one.
-/
import QuboProbe.Binary64
import Mathlib.Tactic.Common
import Mathlib.Data.Nat.Bitwise

namespace QuboProbe.Binary64

/-! ## Magnitude and sign -/

/-- The sign bit, `2^63`. -/
def signBit : Nat := 9223372036854775808

theorem unsigned_toNat (x : Binary64) : x.unsigned.toNat = x.bits.toNat % signBit := by
  rw [unsigned, UInt64.toNat_and, signBit]
  exact Nat.and_two_pow_sub_one_eq_mod x.bits.toNat 63

theorem unsigned_lt (x : Binary64) : x.unsigned.toNat < signBit := by
  rw [unsigned_toNat]
  exact Nat.mod_lt _ (by decide)

theorem isNegative_iff {x : Binary64} : x.isNegative = true ↔ signBit ≤ x.bits.toNat := by
  rw [isNegative, bne_iff_ne, ne_eq, ← UInt64.toNat_inj, unsigned_toNat, signBit]
  omega

/-- A pattern is the magnitude and, for a negative value, the sign bit. -/
theorem bits_toNat (x : Binary64) :
    x.bits.toNat = x.unsigned.toNat + if x.isNegative then signBit else 0 := by
  have hlt : x.bits.toNat < 2 * signBit := x.bits.toNat_lt
  have hsign := isNegative_iff (x := x)
  rw [unsigned_toNat]
  by_cases h : x.isNegative = true
  · have hle := hsign.1 h
    rw [if_pos h]
    rw [signBit] at *
    omega
  · have hlt' : x.bits.toNat < signBit := Nat.lt_of_not_le fun hle => h (hsign.2 hle)
    rw [if_neg h, Nat.mod_eq_of_lt hlt', Nat.add_zero]

theorem ext_unsigned {x y : Binary64} (hsign : x.isNegative = y.isNegative)
    (hmagnitude : x.unsigned = y.unsigned) : x = y := by
  have hbits : x.bits = y.bits := by
    rw [← UInt64.toNat_inj, bits_toNat x, bits_toNat y, hsign, hmagnitude]
  cases x
  cases y
  exact congrArg mk hbits

/-! ## The order as that of signed words -/

/-- The bits without the sign bit. -/
def payload : BitVec 64 := BitVec.ofNat 64 (signBit - 1)

/-- The pattern as a signed word, the other bits turned round when the sign bit is set: the sign
bit is spread over a word, and that word without its own sign bit is the mask. -/
def totalKey (x : Binary64) : Int64 :=
  x.bits.toInt64 ^^^ ((x.bits.toInt64 >>> 63).toUInt64 >>> 1).toInt64

theorem toBitVec_totalKey (x : Binary64) :
    x.totalKey.toBitVec = x.bits.toBitVec ^^^ (x.bits.toBitVec.sshiftRight 63 >>> 1) := rfl

theorem msb_bits (x : Binary64) : x.bits.toBitVec.msb = x.isNegative := by
  rw [Bool.eq_iff_iff, isNegative_iff, BitVec.msb_eq_decide, decide_eq_true_iff]
  rfl

theorem getLsbD_payload {i : Nat} (hi : i < 64) : payload.getLsbD i = decide (i < 63) := by
  have hbits : signBit - 1 = 2 ^ 63 - 1 := rfl
  rw [payload, BitVec.getLsbD_ofNat, hbits, Nat.testBit_two_pow_sub_one, decide_eq_true hi,
    Bool.true_and]

/-- Under a set sign bit, turning the other bits round is to complement the magnitude. -/
theorem xor_payload {b : BitVec 64} (h : b.msb = true) : b ^^^ payload = ~~~(b &&& payload) := by
  apply BitVec.eq_of_getLsbD_eq
  intro i hi
  rw [BitVec.getLsbD_xor, BitVec.getLsbD_not, BitVec.getLsbD_and, getLsbD_payload hi,
    decide_eq_true hi, Bool.true_and]
  by_cases hlow : i < 63
  · rw [decide_eq_true hlow, Bool.xor_true, Bool.and_true]
  · -- the sign bit stays
    obtain rfl : i = 63 := by omega
    rw [BitVec.msb_eq_getLsbD_last] at h
    rw [h, decide_eq_false hlow]
    rfl

/-- A clear sign bit is spread to nothing. -/
theorem ushiftRight_eq_zero {b : BitVec 64} (h : b.msb = false) : b >>> 63 = 0#64 := by
  rw [BitVec.msb_eq_decide, decide_eq_false_iff_not, Nat.not_le] at h
  apply BitVec.eq_of_toNat_eq
  rw [BitVec.toNat_ushiftRight, Nat.shiftRight_eq_div_pow, Nat.div_eq_of_lt h]
  rfl

theorem toBitVec_totalKey_of_positive {x : Binary64} (h : x.isNegative = false) :
    x.totalKey.toBitVec = x.bits.toBitVec := by
  have hmsb := x.msb_bits.trans h
  rw [toBitVec_totalKey, BitVec.sshiftRight_eq_of_msb_false hmsb, ushiftRight_eq_zero hmsb,
    BitVec.zero_ushiftRight, BitVec.xor_zero]

theorem toBitVec_totalKey_of_negative {x : Binary64} (h : x.isNegative = true) :
    x.totalKey.toBitVec = ~~~(x.bits.toBitVec &&& payload) := by
  have hmsb := x.msb_bits.trans h
  have hclear : (~~~x.bits.toBitVec).msb = false := by rw [BitVec.msb_not, hmsb]; rfl
  have hmask : ~~~(0#64) >>> 1 = payload := rfl
  rw [toBitVec_totalKey, BitVec.sshiftRight_eq_of_msb_true hmsb, ushiftRight_eq_zero hclear, hmask,
    xor_payload hmsb]

/-- As a signed word, a pattern stands at its place in the total order. -/
theorem toInt_totalKey (x : Binary64) : x.totalKey.toInt = x.place := by
  have hkey : x.totalKey.toInt = x.totalKey.toBitVec.toInt := rfl
  rw [hkey, place]
  cases h : x.isNegative with
  | false =>
    rw [toBitVec_totalKey_of_positive h, BitVec.toInt_eq_toNat_of_msb (x.msb_bits.trans h),
      if_neg Bool.false_ne_true]
    have hbits := x.bits_toNat
    rw [h, if_neg Bool.false_ne_true, Nat.add_zero] at hbits
    exact congrArg Nat.cast hbits
  | true =>
    have hunsigned : (x.bits.toBitVec &&& payload).toNat = x.unsigned.toNat := rfl
    have hlt := x.unsigned_lt
    rw [signBit] at hlt
    rw [toBitVec_totalKey_of_negative h, BitVec.toInt_eq_toNat_cond, BitVec.toNat_not, hunsigned,
      if_pos rfl]
    split <;> omega

theorem totalKey_le_iff {x y : Binary64} : x.totalKey ≤ y.totalKey ↔ x.place ≤ y.place := by
  rw [Int64.le_iff_toInt_le, toInt_totalKey, toInt_totalKey]

theorem totalKey_lt_iff {x y : Binary64} : x.totalKey < y.totalKey ↔ x.place < y.place := by
  rw [Int64.lt_iff_toInt_lt, toInt_totalKey, toInt_totalKey]

/-! ## Ranks -/

instance : Std.TransCmp (Scalar.rank : Binary64 → Binary64 → Ordering) :=
  inferInstanceAs (Std.TransCmp (compareOn place))

theorem rank_isLE_iff {x y : Binary64} :
    (Scalar.rank x y).isLE = true ↔ x.place ≤ y.place :=
  Std.isLE_compare (a := x.place) (b := y.place)

/-- Different patterns have different places. -/
theorem place_injective {x y : Binary64} (h : x.place = y.place) : x = y := by
  rw [place, place] at h
  cases hx : x.isNegative <;> cases hy : y.isNegative <;>
    simp only [hx, hy, if_true, Bool.false_eq_true, if_false] at h
  · exact ext_unsigned (hx.trans hy.symm) (UInt64.toNat_inj.1 (Int.ofNat_inj.1 h))
  · omega
  · omega
  · exact ext_unsigned (hx.trans hy.symm) (UInt64.toNat_inj.1 (by omega))

/-! ## Undefined values -/

/-- The magnitude of the infinities, above which the undefined values are. -/
def infinity : Nat := 9218868437227405312

theorem isNaN_iff {x : Binary64} : x.isNaN = true ↔ infinity < x.unsigned.toNat := by
  rw [isNaN, decide_eq_true_iff, UInt64.lt_iff_toNat_lt]
  rfl

theorem place_of_negative {x : Binary64} (h : x.isNegative = true) :
    x.place = -(x.unsigned.toNat : Int) - 1 := by
  rw [place, if_pos h]

theorem place_of_positive {x : Binary64} (h : x.isNegative = false) :
    x.place = x.unsigned.toNat := by
  rw [place, h, if_neg Bool.false_ne_true]

/-- An undefined value with the sign set stands before all others. -/
theorem place_lt_of_negative_NaN {x y : Binary64} (hx : x.isNaN = true)
    (hsign : x.isNegative = true) (hy : ¬(y.isNaN = true ∧ y.isNegative = true)) :
    x.place < y.place := by
  have hx' := isNaN_iff.1 hx
  rw [place_of_negative hsign]
  cases hneg : y.isNegative with
  | false =>
    rw [place_of_positive hneg]
    omega
  | true =>
    have hy' : ¬infinity < y.unsigned.toNat := fun h => hy ⟨isNaN_iff.2 h, hneg⟩
    rw [place_of_negative hneg]
    omega

/-- An undefined value without the sign stands behind all others. -/
theorem place_lt_of_positive_NaN {x y : Binary64} (hx : x.isNaN = true)
    (hsign : x.isNegative = false) (hy : ¬(y.isNaN = true ∧ y.isNegative = false)) :
    y.place < x.place := by
  have hx' := isNaN_iff.1 hx
  rw [place_of_positive hsign]
  cases hneg : y.isNegative with
  | false =>
    have hy' : ¬infinity < y.unsigned.toNat := fun h => hy ⟨isNaN_iff.2 h, hneg⟩
    rw [place_of_positive hneg]
    omega
  | true =>
    rw [place_of_negative hneg]
    omega

/-- The undefined values with the sign set, the numbers, and the undefined values without it. -/
def tier (x : Binary64) : Nat :=
  if x.isNaN then if x.isNegative then 0 else 2 else 1

theorem tier_eq_zero_iff {x : Binary64} :
    x.tier = 0 ↔ x.isNaN = true ∧ x.isNegative = true := by
  rw [tier]
  cases x.isNaN <;> cases x.isNegative <;> decide

theorem tier_eq_one_iff {x : Binary64} : x.tier = 1 ↔ x.isNaN = false := by
  rw [tier]
  cases x.isNaN <;> cases x.isNegative <;> decide

theorem tier_eq_two_iff {x : Binary64} :
    x.tier = 2 ↔ x.isNaN = true ∧ x.isNegative = false := by
  rw [tier]
  cases x.isNaN <;> cases x.isNegative <;> decide

theorem tier_le_two (x : Binary64) : x.tier ≤ 2 := by
  rw [tier]
  cases x.isNaN <;> cases x.isNegative <;> decide

/-- The tiers follow each other in the total order. -/
theorem tier_le_of_place_le {x y : Binary64} (h : x.place ≤ y.place) : x.tier ≤ y.tier := by
  by_contra hlt
  have hx := x.tier_le_two
  by_cases hy : y.tier = 0
  · obtain ⟨hNaN, hsign⟩ := tier_eq_zero_iff.1 hy
    have hbelow := place_lt_of_negative_NaN hNaN hsign (y := x)
      fun h0 => by rw [tier_eq_zero_iff.2 h0] at hlt; omega
    omega
  · -- the only tier above another one that is not the lowest
    have hx2 : x.tier = 2 := by omega
    obtain ⟨hNaN, hsign⟩ := tier_eq_two_iff.1 hx2
    have habove := place_lt_of_positive_NaN hNaN hsign (y := y)
      fun h2 => by rw [tier_eq_two_iff.2 h2] at hlt; omega
    omega

end QuboProbe.Binary64
