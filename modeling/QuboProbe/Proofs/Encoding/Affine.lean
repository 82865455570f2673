/-
  QuboProbe.Proofs.Encoding.Affine

  The numbers in a decoded value as functions of the bits of its field.  For
  each of the library's own encodings they are affine: a constant plus a sum of
  bits with weights (`Encoding.BuiltIn.affine`).
-/
import QuboProbe.Exact
import QuboProbe.Proofs.Encoding.Lawful
import QuboProbe.Proofs.Moebius

namespace QuboProbe

/-- A number in a value: the integer itself, or an entry of a vector.  What is not there is zero. -/
def Value.number : Value → Option Nat → ℚ
  | .int v, none => v.toInt
  | .vector vs, some k => (vs[k]?.map fun v => (v.toInt : ℚ)).getD 0
  | _, _ => 0

/-! ## Bits of a part of a string -/

namespace BitString

theorem point_eq (bits : List UInt8) (i : Nat) :
    (⟨bits⟩ : BitString).point i = if ∃ b, bits[i]? = some b ∧ b ≠ 0 then 1 else 0 := by
  simp only [point, setPoint, mem_support]

/-- The bits of a part are bits of the string. -/
theorem point_slice (bits : List UInt8) (start : Nat) {width k : Nat} (hk : k < width) :
    (⟨(bits.drop start).take width⟩ : BitString).point k =
      (⟨bits⟩ : BitString).point (start + k) := by
  rw [point_eq, point_eq, List.getElem?_take_of_lt hk, List.getElem?_drop]

/-- The bits of a string of zeros and ones are its bytes. -/
theorem Binary.point_eq_getD {n : Nat} {x : BitString} (h : x.Binary n) (k : Nat) :
    x.point k = ((x.bytes.getD k 0).toNat : ℚ) := by
  rw [point_eq, List.getD_eq_getElem?_getD]
  cases hk : x.bytes[k]? with
  | none => simp
  | some b => rcases h.bit b (List.mem_of_getElem? hk) with rfl | rfl <;> simp

end BitString

/-- The number of a field is the sum of its bits with powers of two. -/
theorem Field.toNat_eq_sum {width : Nat} {bits : List UInt8}
    (h : (⟨bits⟩ : BitString).Binary width) :
    (Field.toNat bits : ℚ) = ∑ k ∈ Finset.range width, 2 ^ k * (⟨bits⟩ : BitString).point k := by
  rw [toNat_eq_sum_bytes h, Nat.cast_sum]
  refine Finset.sum_congr rfl fun k _ => ?_
  rw [h.point_eq_getD, Nat.cast_mul, Nat.cast_pow, Nat.cast_ofNat, mul_comm]

namespace Encoding

/-- At this width each number in a decoded value is a constant plus a sum of bits with weights. -/
def Affine (e : Encoding) (width : Nat) : Prop :=
  ∀ r, ∃ (c₀ : ℚ) (c : Nat → ℚ), ∀ bits, (⟨bits⟩ : BitString).Binary width →
    (e.decode bits).number r = c₀ + ∑ k ∈ Finset.range width, c k * (⟨bits⟩ : BitString).point k

/-- What does not depend on the bits is affine. -/
theorem affine_const {e : Encoding} {width : Nat} {r : Option Nat} (c₀ : ℚ)
    (h : ∀ bits, (⟨bits⟩ : BitString).Binary width → (e.decode bits).number r = c₀) :
    ∃ (c₀ : ℚ) (c : Nat → ℚ), ∀ bits, (⟨bits⟩ : BitString).Binary width →
      (e.decode bits).number r =
        c₀ + ∑ k ∈ Finset.range width, c k * (⟨bits⟩ : BitString).point k :=
  ⟨c₀, fun _ => 0, fun bits hbits => by simp [h bits hbits]⟩

theorem unsigned_number {width : Nat} (hw : width ≤ maxWidth) {bits : List UInt8}
    (hbits : (⟨bits⟩ : BitString).Binary width) : (unsigned.decode bits).number none =
      0 + ∑ k ∈ Finset.range width, 2 ^ k * (⟨bits⟩ : BitString).point k := by
  rw [zero_add, ← Field.toNat_eq_sum hbits]
  simp only [unsigned, Value.number, toInt_ofInt_toNat hw hbits.length_eq, Int.cast_natCast]

theorem offsetBinary_number {width : Nat} (hw : width ≤ maxWidth) {bits : List UInt8}
    (hbits : (⟨bits⟩ : BitString).Binary width) : (offsetBinary.decode bits).number none =
      -(bias width : ℚ) + ∑ k ∈ Finset.range width, 2 ^ k * (⟨bits⟩ : BitString).point k := by
  have hlength : bits.length = width := hbits.length_eq
  rw [← Field.toNat_eq_sum hbits]
  simp only [offsetBinary, Value.number, hlength, toInt_ofInt_sub_bias hw hlength]
  push_cast
  ring

theorem unsigned_affine {width : Nat} (hw : width ≤ maxWidth) : unsigned.Affine width := by
  intro r
  cases r with
  | some k => exact affine_const 0 fun bits _ => rfl
  | none => exact ⟨0, fun k => 2 ^ k, fun bits hbits => unsigned_number hw hbits⟩

theorem offsetBinary_affine {width : Nat} (hw : width ≤ maxWidth) : offsetBinary.Affine width := by
  intro r
  cases r with
  | some k => exact affine_const 0 fun bits _ => rfl
  | none =>
    exact ⟨-(bias width : ℚ), fun k => 2 ^ k, fun bits hbits => offsetBinary_number hw hbits⟩

/-- The encodings of one integer in binary digits. -/
inductive Positional : Encoding → Prop where
  | unsigned : Positional .unsigned
  | offsetBinary : Positional .offsetBinary

/-- In such an encoding the integer is a constant plus its bits with powers of two. -/
theorem Positional.number {e : Encoding} (he : e.Positional) {width : Nat}
    (h : e.checkWidth width = .ok ()) : ∃ c₀ : ℚ, ∀ bits, (⟨bits⟩ : BitString).Binary width →
      (e.decode bits).number none =
        c₀ + ∑ k ∈ Finset.range width, 2 ^ k * (⟨bits⟩ : BitString).point k := by
  cases he with
  | unsigned => exact ⟨_, fun _ => unsigned_number (unsignedWidth_eq_ok.1 h)⟩
  | offsetBinary => exact ⟨_, fun _ => offsetBinary_number (offsetBinaryWidth_eq_ok.1 h)⟩

/-- The pieces of a list that has so many of one size. -/
theorem getElem?_chunks {β : Type} {size : Nat} (hs : 0 < size) {count : Nat} {xs : List β}
    (hxs : xs.length = count * size) (i : Nat) :
    (chunks size xs)[i]? = if i < count then some ((xs.drop (i * size)).take size) else none := by
  induction count generalizing xs i with
  | zero =>
    obtain rfl := List.length_eq_zero_iff.1 (hxs.trans (Nat.zero_mul size))
    rfl
  | succ count ih =>
    rw [Nat.add_mul, Nat.one_mul] at hxs
    have hfirst : (xs.take size).length = size := by
      rw [List.length_take]
      omega
    have hrest : (xs.drop size).length = count * size := by
      rw [List.length_drop]
      omega
    have hcut : chunks size xs = xs.take size :: chunks size (xs.drop size) := by
      rw [← chunks_append hs hfirst, List.take_append_drop]
    rw [hcut]
    cases i with
    | zero => simp
    | succ i =>
      rw [List.getElem?_cons_succ, ih hrest, List.drop_drop, Nat.add_mul, Nat.one_mul]
      simp only [Nat.add_lt_add_iff_right, Nat.add_comm]

/-- A sum over a part of the bits is a sum over all of them. -/
theorem sum_slice {start width n : Nat} (hstop : start + width ≤ n) (f : Nat → ℚ) (g : Nat → ℚ) :
    ∑ k ∈ Finset.range n,
        (if k ∈ Finset.Ico start (start + width) then f (k - start) else 0) * g k =
      ∑ k ∈ Finset.range width, f k * g (start + k) := by
  have hpart : Finset.range n ∩ Finset.Ico start (start + width) =
      Finset.Ico start (start + width) := by
    apply Finset.inter_eq_right.2
    intro k hk
    have := Finset.mem_Ico.1 hk
    exact Finset.mem_range.2 (by omega)
  simp only [ite_mul, zero_mul]
  rw [Finset.sum_ite_mem, hpart, Finset.sum_Ico_eq_sum_range, Nat.add_sub_cancel_left]
  apply Finset.sum_congr rfl
  intro k _
  rw [Nat.add_sub_cancel_left]

theorem packed_affine {count entryWidth : Nat} (hw : entryWidth ≤ maxWidth) :
    (packed count entryWidth).Affine (count * entryWidth) := by
  intro r
  by_cases hzero : entryWidth = 0
  · -- entries of no bits are zero
    apply affine_const 0
    intro bits _
    cases r with
    | none => simp [packed, packedDecode, hzero, Value.number]
    | some k =>
      simp only [packed, packedDecode, if_pos hzero, Value.number, List.getElem?_replicate]
      split <;> rfl
  · have hdecode (bits : List UInt8) : (packed count entryWidth).decode bits =
        .vector ((chunks entryWidth bits).map fun b => Int64.ofInt (Field.toNat b)) := if_neg hzero
    cases r with
    | none => exact affine_const 0 fun bits _ => by rw [hdecode]; rfl
    | some i =>
      have hentry (bits : List UInt8) (hbits : (⟨bits⟩ : BitString).Binary (count * entryWidth)) :=
        getElem?_chunks (Nat.pos_of_ne_zero hzero) hbits.length_eq i
      by_cases hi : i < count
      · have hstop : i * entryWidth + entryWidth ≤ count * entryWidth := by
          rw [← Nat.succ_mul]
          exact Nat.mul_le_mul_right entryWidth hi
        -- the digits of the entry stand in its piece, and no other bit counts
        refine ⟨0, fun k =>
          if k ∈ Finset.Ico (i * entryWidth) (i * entryWidth + entryWidth) then
            2 ^ (k - i * entryWidth) else 0, fun bits hbits => ?_⟩
        have hfield := hbits.slice hstop
        rw [zero_add, sum_slice hstop (fun k => 2 ^ k), hdecode, Value.number, List.getElem?_map,
          hentry bits hbits, if_pos hi, Option.map_some, Option.map_some, Option.getD_some,
          toInt_ofInt_toNat hw hfield.length_eq, Int.cast_natCast, Field.toNat_eq_sum hfield]
        apply Finset.sum_congr rfl
        intro k hk
        rw [BitString.point_slice bits _ (Finset.mem_range.1 hk)]
      · -- there is no such entry
        apply affine_const 0
        intro bits hbits
        rw [hdecode, Value.number, List.getElem?_map, hentry bits hbits, if_neg hi]
        rfl

/-- In the library's own encodings every number is affine in the bits. -/
theorem BuiltIn.affine {e : Encoding} (he : BuiltIn e) {width : Nat}
    (h : e.checkWidth width = .ok ()) : e.Affine width := by
  cases he with
  | unsigned => exact unsigned_affine (unsignedWidth_eq_ok.1 h)
  | offsetBinary => exact offsetBinary_affine (offsetBinaryWidth_eq_ok.1 h)
  | packed count entryWidth =>
    obtain ⟨hw, rfl⟩ := packedWidth_eq_ok.1 h
    exact packed_affine hw

end Encoding

end QuboProbe
