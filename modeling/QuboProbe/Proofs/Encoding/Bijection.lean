/-
  QuboProbe.Proofs.Encoding.Bijection

  The library's encodings are bijective codecs between their domains and the
  bit fields of a width (`Encoding.builtIn_bijective`).  An encoding that is
  lawful at a width is one on the values that it takes there, so what remains
  is to say which values these are.  Neither direction leaves the words of 64
  bits.
-/
import QuboProbe.Proofs.Encoding.Words
import Mathlib.Data.Set.Function

namespace QuboProbe.Encoding

/-- The bit fields of a width: zeros and ones. -/
def fields (width : Nat) : Set (List UInt8) :=
  {bits | bits.length = width ∧ ∀ b ∈ bits, b = 0 ∨ b = 1}

theorem mem_fields {width : Nat} {bits : List UInt8} :
    bits ∈ fields width ↔ (⟨bits⟩ : BitString).Binary width :=
  ⟨fun h => ⟨h.1, h.2⟩, fun h => ⟨h.length_eq, h.bit⟩⟩

/-- At a width, the encoding is a bijection from a domain onto the bit fields, and its decoding is
the inverse. -/
structure Bijective (e : Encoding) (domain : Set Value) (width : Nat) : Prop where
  bijOn : Set.BijOn (fun v => e.encode v width) domain (Except.ok '' fields width)
  decode_encode : ∀ v ∈ domain, ∀ bits, e.encode v width = .ok bits → e.decode bits = v
  decode_mem : ∀ bits ∈ fields width, e.decode bits ∈ domain
  encode_decode : ∀ bits ∈ fields width, e.encode (e.decode bits) width = .ok bits

/-- A lawful encoding is bijective on the values that it takes. -/
theorem Lawful.bijective {e : Encoding} {domain : Set Value} {width : Nat}
    (he : e.Lawful width) (hdomain : ∀ v, v ∈ domain ↔ ∃ bits, e.encode v width = .ok bits) :
    e.Bijective domain width where
  bijOn := by
    refine ⟨fun v hv => ?_, fun v hv v' hv' h => ?_, ?_⟩
    · obtain ⟨bits, hbits⟩ := (hdomain v).1 hv
      exact ⟨bits, mem_fields.2 (he.binary v bits hbits), hbits.symm⟩
    · -- two values of one field are both read from it
      obtain ⟨bits, hbits⟩ := (hdomain v).1 hv
      have hbits' : e.encode v' width = .ok bits := Eq.trans h.symm hbits
      exact (he.decode_encode v bits hbits).symm.trans (he.decode_encode v' bits hbits')
    · rintro _ ⟨bits, hbits, rfl⟩
      have hback := he.encode_decode bits (mem_fields.1 hbits)
      exact ⟨e.decode bits, (hdomain _).2 ⟨bits, hback⟩, hback⟩
  decode_encode v _ bits hbits := he.decode_encode v bits hbits
  decode_mem bits hbits := (hdomain _).2 ⟨bits, he.encode_decode bits (mem_fields.1 hbits)⟩
  encode_decode bits hbits := he.encode_decode bits (mem_fields.1 hbits)

/-- Computed in words, every value of a domain is encoded and every bit field is decoded, as by the
encoding itself: no step overflows or shifts by too many places. -/
structure InWords (e : Encoding)
    (encode? : Value → Nat → Option (Except CodingError (List UInt8)))
    (decode? : List UInt8 → Option Value) (domain : Set Value) (width : Nat) : Prop where
  encode : ∀ v ∈ domain, encode? v width = some (e.encode v width)
  decode : ∀ bits ∈ fields width, decode? bits = some (e.decode bits)

/-! ## Domains -/

theorem exists_writeField_iff {v : Int} {width : Nat} :
    (∃ bits, writeField v width = .ok bits) ↔ 0 ≤ v ∧ v < 2 ^ width := by
  have hcast : ((Nat.pow 2 width : Nat) : Int) = 2 ^ width := by simp
  constructor
  · rintro ⟨bits, hbits⟩
    obtain ⟨hnonneg, hsmall, -⟩ := writeField_eq_ok.1 hbits
    omega
  · intro ⟨hnonneg, hsmall⟩
    exact ⟨_, writeField_eq_ok.2 ⟨hnonneg, by omega, rfl⟩⟩

/-- The integers of a number of binary digits. -/
def unsignedDomain (width : Nat) : Set Value :=
  {v | ∃ i : Int64, v = .int i ∧ 0 ≤ i.toInt ∧ i.toInt < 2 ^ width}

theorem mem_unsignedDomain {width : Nat} (hw : width ≤ maxWidth) (v : Value) :
    v ∈ unsignedDomain width ↔ ∃ bits, unsigned.encode v width = .ok bits := by
  constructor
  · rintro ⟨i, rfl, hrange⟩
    obtain ⟨bits, hbits⟩ := exists_writeField_iff.2 hrange
    exact ⟨bits, unsignedEncode_eq_ok.2 ⟨hw, i, rfl, hbits⟩⟩
  · rintro ⟨bits, hbits⟩
    obtain ⟨-, i, rfl, hfield⟩ := unsignedEncode_eq_ok.1 hbits
    exact ⟨i, rfl, exists_writeField_iff.1 ⟨bits, hfield⟩⟩

/-- As many integers below zero as from zero on, and zero alone when there is no bit. -/
def offsetBinaryDomain : Nat → Set Value
  | 0 => {.int 0}
  | w + 1 => {v | ∃ i : Int64, v = .int i ∧ -2 ^ w ≤ i.toInt ∧ i.toInt < 2 ^ w}

theorem mem_offsetBinaryDomain_iff {width : Nat} {v : Value} :
    v ∈ offsetBinaryDomain width ↔
      ∃ i : Int64, v = .int i ∧ -(bias width : Int) ≤ i.toInt ∧ i.toInt < upper width := by
  cases width with
  | zero =>
    constructor
    · rintro rfl
      exact ⟨0, rfl, by decide, by decide⟩
    · rintro ⟨i, rfl, hlow, hhigh⟩
      have hzero : i.toInt = 0 := by
        simp only [bias, upper] at hlow hhigh
        omega
      obtain rfl : i = 0 := Int64.toInt_inj.1 hzero
      rfl
  | succ w =>
    have hcast : ((Nat.pow 2 w : Nat) : Int) = 2 ^ w := by simp
    rw [bias, upper, hcast]
    rfl

theorem mem_offsetBinaryDomain {width : Nat} (hw : width ≤ maxWidth) (v : Value) :
    v ∈ offsetBinaryDomain width ↔ ∃ bits, offsetBinary.encode v width = .ok bits := by
  -- moved up by the bias, the range starts at zero and is as long as there are fields
  have hsum := bias_add_upper width
  have hcast : ((Nat.pow 2 width : Nat) : Int) = 2 ^ width := by simp
  rw [mem_offsetBinaryDomain_iff]
  constructor
  · rintro ⟨i, rfl, hlow, hhigh⟩
    have hfits : 0 ≤ i.toInt + bias width ∧ i.toInt + bias width < 2 ^ width := by omega
    obtain ⟨bits, hbits⟩ := exists_writeField_iff.2 hfits
    exact ⟨bits, offsetBinaryEncode_eq_ok.2 ⟨hw, i, rfl, ⟨hlow, hhigh⟩, hbits⟩⟩
  · rintro ⟨bits, hbits⟩
    obtain ⟨-, i, rfl, hrange, -⟩ := offsetBinaryEncode_eq_ok.1 hbits
    exact ⟨i, rfl, hrange⟩

/-- The vectors of so many entries, each an integer of a number of binary digits. -/
def packedDomain (count entryWidth : Nat) : Set Value :=
  {v | ∃ vs : List Int64, v = .vector vs ∧ vs.length = count ∧
    ∀ i ∈ vs, 0 ≤ i.toInt ∧ i.toInt < 2 ^ entryWidth}

theorem exists_packedFields_iff {entryWidth : Nat} (index : Nat) {vs : List Int64} :
    (∃ bits, packedFields entryWidth index vs = .ok bits) ↔
      ∀ i ∈ vs, 0 ≤ i.toInt ∧ i.toInt < 2 ^ entryWidth := by
  -- the index is that of the entry in a message, so it does not matter where the vector starts
  induction vs generalizing index with
  | nil => exact ⟨fun _ i hi => absurd hi List.not_mem_nil, fun _ => ⟨[], rfl⟩⟩
  | cons v vs ih =>
    rw [List.forall_mem_cons, ← exists_writeField_iff, ← ih (index + 1)]
    constructor
    · rintro ⟨bits, hbits⟩
      obtain ⟨field, fields, hfield, hfields, -⟩ := packedFields_cons.1 hbits
      exact ⟨⟨field, hfield⟩, ⟨fields, hfields⟩⟩
    · rintro ⟨⟨field, hfield⟩, ⟨fields, hfields⟩⟩
      exact ⟨field ++ fields, packedFields_cons.2 ⟨field, fields, hfield, hfields, rfl⟩⟩

theorem mem_packedDomain {count entryWidth : Nat} (hw : entryWidth ≤ maxWidth) (v : Value) :
    v ∈ packedDomain count entryWidth ↔
      ∃ bits, (packed count entryWidth).encode v (count * entryWidth) = .ok bits := by
  constructor
  · rintro ⟨vs, rfl, hcount, hrange⟩
    obtain ⟨bits, hbits⟩ := (exists_packedFields_iff 0).2 hrange
    exact ⟨bits, packedEncode_eq_ok.2
      ⟨packedWidth_eq_ok.2 ⟨hw, rfl⟩, vs, rfl, hcount, hbits⟩⟩
  · rintro ⟨bits, hbits⟩
    obtain ⟨-, vs, rfl, hcount, hfields⟩ := packedEncode_eq_ok.1 hbits
    exact ⟨vs, rfl, hcount, (exists_packedFields_iff 0).1 ⟨bits, hfields⟩⟩

/-! ## Codecs -/

/-- The library's encodings are bijective codecs: unsigned integers, offset binary and packed
vectors at every width that they take, the packed vectors at every count of which the width is a
word.  Their arithmetic stays in the words. -/
theorem builtIn_bijective :
    (∀ width ≤ maxWidth,
      unsigned.Bijective (unsignedDomain width) width ∧
      unsigned.InWords Word.unsignedEncode? Word.unsignedDecode? (unsignedDomain width) width) ∧
    (∀ width ≤ maxWidth,
      offsetBinary.Bijective (offsetBinaryDomain width) width ∧
      offsetBinary.InWords Word.offsetBinaryEncode? Word.offsetBinaryDecode?
        (offsetBinaryDomain width) width) ∧
    ∀ count entryWidth, entryWidth ≤ maxWidth → count * entryWidth < 18446744073709551616 →
      (packed count entryWidth).Bijective (packedDomain count entryWidth) (count * entryWidth) ∧
      (packed count entryWidth).InWords (Word.packedEncode? count entryWidth)
        (Word.packedDecode? count entryWidth) (packedDomain count entryWidth)
        (count * entryWidth) := by
  refine ⟨fun width hw => ⟨?_, ?_⟩, fun width hw => ⟨?_, ?_⟩,
    fun count entryWidth hw hfits => ⟨?_, ?_⟩⟩
  · exact (unsigned_lawful (unsignedWidth_eq_ok.2 hw)).bijective (mem_unsignedDomain hw)
  · exact ⟨fun v _ => Word.unsignedEncode?_eq v width,
      fun bits hbits => Word.unsignedDecode?_eq (hbits.1.trans_le hw)⟩
  · exact (offsetBinary_lawful (offsetBinaryWidth_eq_ok.2 hw)).bijective
      (mem_offsetBinaryDomain hw)
  · exact ⟨fun v _ => Word.offsetBinaryEncode?_eq v width,
      fun bits hbits => Word.offsetBinaryDecode?_eq (hbits.1.trans_le hw)⟩
  · exact (packed_lawful (packedWidth_eq_ok.2 ⟨hw, rfl⟩)).bijective (mem_packedDomain hw)
  · exact ⟨fun v _ => Word.packedEncode?_eq hfits v (count * entryWidth),
      fun bits _ => Word.packedDecode?_eq hw bits⟩

/-- At the greatest width of offset binary, and for vectors of many entries of no bits. -/
theorem builtIn_bijective_extremes :
    unsigned.Bijective (unsignedDomain 0) 0 ∧
    offsetBinary.Bijective (offsetBinaryDomain 62) 62 ∧
    (packed 1000 0).Bijective (packedDomain 1000 0) (1000 * 0) ∧
    (packed 0 62).Bijective (packedDomain 0 62) (0 * 62) :=
  ⟨(builtIn_bijective.1 0 (by decide)).1, (builtIn_bijective.2.1 62 (by decide)).1,
    (builtIn_bijective.2.2 1000 0 (by decide) (by decide)).1,
    (builtIn_bijective.2.2 0 62 (by decide) (by decide)).1⟩

end QuboProbe.Encoding
