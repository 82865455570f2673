/-
  QuboProbe.Proofs.Encoding.Index

  Strings by their index.  The strings of `n` bits are those of the indices
  below `2 ^ n`, each of one index (`BitString.bijOn_ofIndex`), and nothing of
  an index counts but its remainder (`BitString.ofIndex_eq_iff`).  The digits
  of an index are those of the unsigned encoding (`BitString.ofIndex_codec`):
  a loop over the places of an index, one that writes the places of an integer
  and one that joins them again are the same positional code.
-/
import QuboProbe.Proofs.Encoding.Words
import Mathlib.Data.Set.Function

namespace QuboProbe.BitString

/-! ## Indices of strings -/

variable {n : Nat} {x : BitString}

theorem binary_ofIndex (n index : Nat) : (ofIndex n index).Binary n := Field.binary_ofNat n index

theorem toNat_ofIndex (n index : Nat) : Field.toNat (ofIndex n index).bytes = index % 2 ^ n :=
  Field.toNat_ofNat n index

theorem Binary.ofIndex_toNat (h : x.Binary n) : ofIndex n (Field.toNat x.bytes) = x :=
  congrArg BitString.mk (Field.ofNat_toNat h)

theorem Binary.toNat_lt (h : x.Binary n) : Field.toNat x.bytes < 2 ^ n := by
  have hlt := Field.toNat_lt x.bytes
  rwa [show x.bytes.length = n from h.length_eq] at hlt

/-- Indices with the same remainder have the same string, and no others. -/
theorem ofIndex_eq_iff {i j : Nat} : ofIndex n i = ofIndex n j ↔ i % 2 ^ n = j % 2 ^ n := by
  constructor
  · intro h
    rw [← toNat_ofIndex, h, toNat_ofIndex]
  · -- a string is that of its number, which is the remainder of any of its indices
    intro h
    rw [← (binary_ofIndex n i).ofIndex_toNat, toNat_ofIndex, h, ← toNat_ofIndex,
      (binary_ofIndex n j).ofIndex_toNat]

/-- The indices below `2 ^ n` are the numbers of the strings of zeros and ones. -/
theorem bijOn_ofIndex (n : Nat) :
    Set.BijOn (ofIndex n) {i | i < 2 ^ n} {x | x.Binary n} := by
  have hinverse : Set.InvOn (fun x : BitString => Field.toNat x.bytes) (ofIndex n)
      {i | i < 2 ^ n} {x | x.Binary n} :=
    ⟨fun i hi => (toNat_ofIndex n i).trans (Nat.mod_eq_of_lt hi), fun x hx => hx.ofIndex_toNat⟩
  exact hinverse.bijOn (fun i _ => binary_ofIndex n i) fun x hx => hx.toNat_lt

/-! ## The unsigned encoding -/

theorem toInt_ofNat_of_index {index : Nat} (hn : n ≤ Encoding.maxWidth) (hindex : index < 2 ^ n) :
    (Int64.ofNat index).toInt = index := by
  have hsmall : index < 2 ^ 62 := hindex.trans_le (Nat.pow_le_pow_right (by decide) hn)
  exact Int64.toInt_ofNat_of_lt (by omega)

theorem unsigned_encode_index {index : Nat} (hn : n ≤ Encoding.maxWidth) (hindex : index < 2 ^ n) :
    Encoding.unsigned.encode (.int (.ofNat index)) n = .ok (ofIndex n index).bytes := by
  have hvalue := toInt_ofNat_of_index hn hindex
  refine Encoding.unsignedEncode_eq_ok.2 ⟨hn, _, rfl, Encoding.writeField_eq_ok.2 ?_⟩
  rw [hvalue, Int.toNat_natCast]
  exact ⟨Int.natCast_nonneg index, hindex, rfl⟩

theorem unsigned_decode_eq_sum (hn : n ≤ Encoding.maxWidth) (h : x.Binary n) :
    ∃ v, Encoding.unsigned.decode x.bytes = .int v ∧
      v.toInt = ∑ k ∈ Finset.range n, ((x.bytes.getD k 0).toNat : Int) * 2 ^ k := by
  refine ⟨_, rfl, ?_⟩
  rw [Encoding.toInt_ofInt_toNat hn h.length_eq, Field.toNat_eq_sum_bytes h]
  push_cast
  rfl

/-- The code of an index.  For fewer than 64 bits the indices below `2 ^ n` are those of the
strings of zeros and ones, each of one, and other indices count by their remainder; the loop over
an index in a word gives these bits.  Up to 62 bits the bits of an index are the field of the
unsigned encoding for it and are read back as it, and a field is read as the sum of its bits with
powers of two, in words as in integers. -/
theorem ofIndex_codec :
    (∀ n < 64,
      Set.BijOn (ofIndex n) {i | i < 2 ^ n} {x | x.Binary n} ∧
      (∀ i j, ofIndex n i = ofIndex n j ↔ i % 2 ^ n = j % 2 ^ n) ∧
      ∀ index : Word, Word.indexBits? index n = some (ofIndex n index.toNat).bytes) ∧
    ∀ n ≤ Encoding.maxWidth,
      (∀ value, Word.unsignedEncode? value n = some (Encoding.unsigned.encode value n)) ∧
      (∀ index < 2 ^ n, (Int64.ofNat index).toInt = index ∧
        Encoding.unsigned.encode (.int (.ofNat index)) n = .ok (ofIndex n index).bytes ∧
        Encoding.unsigned.decode (ofIndex n index).bytes = .int (.ofNat index)) ∧
      ∀ x : BitString, x.Binary n →
        Word.unsignedDecode? x.bytes = some (Encoding.unsigned.decode x.bytes) ∧
        ∃ v, Encoding.unsigned.decode x.bytes = .int v ∧
          v.toInt = ∑ k ∈ Finset.range n, ((x.bytes.getD k 0).toNat : Int) * 2 ^ k := by
  refine ⟨fun n hn => ⟨bijOn_ofIndex n, fun i j => ofIndex_eq_iff, fun index =>
      Word.indexBits?_eq index (Nat.le_of_lt hn)⟩,
    fun n hn => ⟨fun value => Word.unsignedEncode?_eq value n, fun index hindex => ?_,
      fun x hx => ⟨?_, unsigned_decode_eq_sum hn hx⟩⟩⟩
  · have hencode := unsigned_encode_index hn hindex
    have hlawful := Encoding.unsigned_lawful (Encoding.unsignedWidth_eq_ok.2 hn)
    exact ⟨toInt_ofNat_of_index hn hindex, hencode, hlawful.decode_encode _ _ hencode⟩
  · exact Word.unsignedDecode?_eq (hx.length_eq.trans_le hn)

/-- The index 13 has the bits of 5 among three, and the widest field holds the largest index. -/
theorem ofIndex_codec_extremes :
    ofIndex 3 13 = ofIndex 3 5 ∧
    (∃ i < 2 ^ 3, ofIndex 3 i = ⟨[1, 0, 1]⟩) ∧
    Word.indexBits? 13 3 = some [1, 0, 1] ∧
    Encoding.unsigned.encode (.int (.ofNat (2 ^ 62 - 1))) 62 =
      .ok (ofIndex 62 (2 ^ 62 - 1)).bytes ∧
    Encoding.unsigned.decode (ofIndex 62 (2 ^ 62 - 1)).bytes = .int (.ofNat (2 ^ 62 - 1)) ∧
    ∃ v, Encoding.unsigned.decode [1, 0, 1] = .int v ∧
      v.toInt = ∑ k ∈ Finset.range 3, (([1, 0, 1].getD k 0 : UInt8).toNat : Int) * 2 ^ k := by
  obtain ⟨hindices, hfields⟩ := ofIndex_codec
  obtain ⟨hbijection, hremainder, hloop⟩ := hindices 3 (by decide)
  obtain ⟨-, hlargest, -⟩ := hfields 62 (by decide)
  obtain ⟨-, hwritten, hread⟩ := hlargest (2 ^ 62 - 1) (by decide)
  obtain ⟨-, -, hdecode⟩ := hfields 3 (by decide)
  exact ⟨(hremainder 13 5).2 rfl, hbijection.surjOn (show (⟨[1, 0, 1]⟩ : BitString).Binary 3 by
    decide), hloop 13, hwritten, hread, (hdecode ⟨[1, 0, 1]⟩ (by decide)).2⟩

end QuboProbe.BitString
