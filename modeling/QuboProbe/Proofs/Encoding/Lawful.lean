/-
  QuboProbe.Proofs.Encoding.Lawful

  Encodings that lose nothing.  At a width at which an encoding is lawful, the
  bits of a value are as many as the width, are zeros and ones and are read
  back as the value, and every field of zeros and ones is the field of the
  value that is read from it.  The library's own encodings are lawful at every
  width that they take (`Encoding.BuiltIn.lawful`).
-/
import QuboProbe.Encoding.OffsetBinary
import QuboProbe.Encoding.Packed
import QuboProbe.Encoding.Unsigned
import QuboProbe.Proofs.BitString
import Mathlib.Algebra.BigOperators.Ring.Finset
import Mathlib.Tactic.Ring

namespace QuboProbe

/-! ## Binary fields -/

namespace Field

theorem binary_ofNat (width n : Nat) : (⟨ofNat width n⟩ : BitString).Binary width where
  length_eq := length_ofNat width n
  bit := by
    induction width generalizing n with
    | zero => simp [ofNat]
    | succ width ih =>
      intro b hb
      rcases List.mem_cons.1 hb with rfl | hb
      · split <;> simp
      · exact ih (n / 2) b hb

/-- Zeros and ones are the digits of the number that is read from them. -/
theorem ofNat_toNat {width : Nat} {bits : List UInt8} (h : (⟨bits⟩ : BitString).Binary width) :
    ofNat width (toNat bits) = bits := by
  induction bits generalizing width with
  | nil =>
    obtain rfl : 0 = width := h.length_eq
    rfl
  | cons b bits ih =>
    obtain rfl : bits.length + 1 = width := h.length_eq
    rw [toNat, ofNat]
    have hhalf : (b.toNat % 2 + 2 * toNat bits) / 2 = toNat bits := by omega
    have hlow : (if (b.toNat % 2 + 2 * toNat bits) % 2 = 0 then (0 : UInt8) else 1) = b := by
      rcases h.bit b List.mem_cons_self with rfl | rfl <;> simp
    rw [hhalf, hlow, ih h.tail]

/-- The number of zeros and ones is their sum with powers of two. -/
theorem toNat_eq_sum_bytes {width : Nat} {bits : List UInt8}
    (h : (⟨bits⟩ : BitString).Binary width) :
    toNat bits = ∑ k ∈ Finset.range width, (bits.getD k 0).toNat * 2 ^ k := by
  induction bits generalizing width with
  | nil =>
    obtain rfl : 0 = width := h.length_eq
    rfl
  | cons b bits ih =>
    obtain rfl : bits.length + 1 = width := h.length_eq
    have hlow : b.toNat % 2 = b.toNat := by
      rcases h.bit b List.mem_cons_self with rfl | rfl <;> rfl
    -- the bits behind the first are one place higher than among themselves
    have hhigh : ∑ k ∈ Finset.range bits.length, ((b :: bits).getD (k + 1) 0).toNat * 2 ^ (k + 1) =
        2 * toNat bits := by
      rw [ih h.tail, Finset.mul_sum]
      refine Finset.sum_congr rfl fun k _ => ?_
      rw [List.getD_cons_succ, pow_succ]
      ring
    rw [Finset.sum_range_succ', hhigh, toNat, hlow, List.getD_cons_zero, pow_zero, mul_one, add_comm]

end Field

namespace Encoding

/-! ## Fields of one integer -/

theorem writeField_eq_ok {v : Int} {width : Nat} {bits : List UInt8} :
    writeField v width = .ok bits ↔
      0 ≤ v ∧ v.toNat < Nat.pow 2 width ∧ Field.ofNat width v.toNat = bits := by
  unfold writeField
  split
  · rename_i hneg
    simp only [reduceCtorEq, false_iff]
    omega
  · split
    · rename_i hnonneg hlarge
      simp only [reduceCtorEq, false_iff]
      omega
    · rename_i hnonneg hsmall
      rw [Except.ok.injEq]
      constructor
      · intro h
        exact ⟨by omega, by omega, h⟩
      · exact fun h => h.2.2

/-- The number of a field that was written is the value. -/
theorem toNat_writeField {v : Int} {width : Nat} {bits : List UInt8}
    (h : writeField v width = .ok bits) : (Field.toNat bits : Int) = v := by
  obtain ⟨hnonneg, hsmall, rfl⟩ := writeField_eq_ok.1 h
  rw [Field.toNat_ofNat, Nat.mod_eq_of_lt hsmall]
  omega

theorem binary_writeField {v : Int} {width : Nat} {bits : List UInt8}
    (h : writeField v width = .ok bits) : (⟨bits⟩ : BitString).Binary width := by
  obtain ⟨-, -, rfl⟩ := writeField_eq_ok.1 h
  exact Field.binary_ofNat width _

/-- Every field of zeros and ones is written for its number. -/
theorem writeField_toNat {width : Nat} {bits : List UInt8}
    (h : (⟨bits⟩ : BitString).Binary width) :
    writeField (Field.toNat bits : Int) width = .ok bits := by
  have hlt := Field.toNat_lt bits
  have hlength : bits.length = width := h.length_eq
  rw [hlength] at hlt
  exact writeField_eq_ok.2 ⟨by omega, by simpa using hlt, by simpa using Field.ofNat_toNat h⟩

/-- The number of a field of at most 62 bits fits into a word. -/
theorem toNat_lt_of_width {width : Nat} {bits : List UInt8} (hw : width ≤ maxWidth)
    (h : bits.length = width) : Field.toNat bits < 2 ^ 62 := by
  refine Nat.lt_of_lt_of_le (Field.toNat_lt bits) ?_
  rw [h]
  exact Nat.pow_le_pow_right (by omega) hw

theorem toInt_ofInt_toNat {width : Nat} {bits : List UInt8} (hw : width ≤ maxWidth)
    (h : bits.length = width) : (Int64.ofInt (Field.toNat bits)).toInt = Field.toNat bits := by
  have := toNat_lt_of_width hw h
  exact Int64.toInt_ofInt_of_le (by omega) (by omega)

/-! ## Lawful encodings -/

/-- At this width the encoding loses nothing. -/
structure Lawful (e : Encoding) (width : Nat) : Prop where
  binary : ∀ v bits, e.encode v width = .ok bits → (⟨bits⟩ : BitString).Binary width
  decode_encode : ∀ v bits, e.encode v width = .ok bits → e.decode bits = v
  encode_decode : ∀ bits, (⟨bits⟩ : BitString).Binary width →
    e.encode (e.decode bits) width = .ok bits

/-- At this width the encoding gives neither more nor fewer bits. -/
def Fills (e : Encoding) (width : Nat) : Prop :=
  ∀ v bits, e.encode v width = .ok bits → bits.length = width

theorem Lawful.fills {e : Encoding} {width : Nat} (he : e.Lawful width) : e.Fills width :=
  fun v bits h => (he.binary v bits h).length_eq

/-- The library's own encodings. -/
inductive BuiltIn : Encoding → Prop where
  | unsigned : BuiltIn unsigned
  | offsetBinary : BuiltIn offsetBinary
  | packed (count width : Nat) : BuiltIn (packed count width)

theorem inDomain_eq_ok {β : Type} {scheme : String} {r : Except DomainFault β} {b : β} :
    inDomain scheme r = .ok b ↔ r = .ok b := by
  cases r <;> simp [inDomain]

/-! ### Unsigned integers -/

theorem unsignedWidth_eq_ok {width : Nat} :
    unsignedWidth width = .ok () ↔ width ≤ maxWidth := by
  unfold unsignedWidth
  split
  · simp only [reduceCtorEq, false_iff]
    omega
  · simp only [true_iff]
    omega

theorem unsignedEncode_eq_ok {value : Value} {width : Nat} {bits : List UInt8} :
    unsignedEncode value width = .ok bits ↔
      width ≤ maxWidth ∧ ∃ v, value = .int v ∧ writeField v.toInt width = .ok bits := by
  unfold unsignedEncode unsignedWidth
  by_cases hw : maxWidth < width
  · simp [hw, bind, Except.bind]
  · cases value with
    | int v =>
      simp [hw, bind, Except.bind, inDomain_eq_ok]
      omega
    | vector vs => simp [hw, bind, Except.bind]

theorem unsigned_lawful {width : Nat} (h : unsigned.checkWidth width = .ok ()) :
    unsigned.Lawful width := by
  have hw := unsignedWidth_eq_ok.1 h
  refine ⟨fun v bits henc => ?_, fun v bits henc => ?_, fun bits hbits => ?_⟩
  · obtain ⟨-, v, rfl, hfield⟩ := unsignedEncode_eq_ok.1 henc
    exact binary_writeField hfield
  · obtain ⟨-, v, rfl, hfield⟩ := unsignedEncode_eq_ok.1 henc
    simp only [unsigned, toNat_writeField hfield, Int64.ofInt_toInt]
  · refine unsignedEncode_eq_ok.2 ⟨hw, _, rfl, ?_⟩
    rw [toInt_ofInt_toNat hw hbits.length_eq]
    exact writeField_toNat hbits

/-! ### Offset binary -/

theorem offsetBinaryWidth_eq_ok {width : Nat} :
    offsetBinaryWidth width = .ok () ↔ width ≤ maxWidth := by
  unfold offsetBinaryWidth
  split
  · simp only [reduceCtorEq, false_iff]
    omega
  · simp only [true_iff]
    omega

/-- Half of the numbers of a field are below zero. -/
theorem bias_add_upper (width : Nat) : bias width + upper width = Nat.pow 2 width := by
  cases width with
  | zero => rfl
  | succ w =>
    simp only [bias, upper, Nat.pow_eq, Nat.pow_succ]
    omega

theorem bias_le {width : Nat} (hw : width ≤ maxWidth) : bias width ≤ 2 ^ 62 := by
  have hpow : Nat.pow 2 width ≤ 2 ^ 62 := Nat.pow_le_pow_right (by omega) hw
  have := bias_add_upper width
  omega

theorem offsetBinaryEncode_eq_ok {value : Value} {width : Nat} {bits : List UInt8} :
    offsetBinaryEncode value width = .ok bits ↔
      width ≤ maxWidth ∧ ∃ v, value = .int v ∧
        (-(bias width : Int) ≤ v.toInt ∧ v.toInt < upper width) ∧
        writeField (v.toInt + bias width) width = .ok bits := by
  unfold offsetBinaryEncode offsetBinaryWidth
  cases value with
  | vector vs => simp
  | int v =>
    by_cases hw : maxWidth < width
    · simp [hw, bind, Except.bind]
    · by_cases hrange : v.toInt < -(bias width : Int) ∨ (upper width : Int) ≤ v.toInt
      · simp [hw, hrange, bind, Except.bind]
        omega
      · have hin : -(bias width : Int) ≤ v.toInt ∧ v.toInt < upper width := by omega
        simp [hw, hrange, bind, Except.bind, inDomain_eq_ok, hin, Nat.le_of_not_lt hw]

/-- The value of a field fits into a word. -/
theorem toInt_ofInt_sub_bias {width : Nat} {bits : List UInt8} (hw : width ≤ maxWidth)
    (h : bits.length = width) :
    (Int64.ofInt ((Field.toNat bits : Int) - bias width)).toInt =
      (Field.toNat bits : Int) - bias width := by
  have hlt := toNat_lt_of_width hw h
  have hbias := bias_le hw
  exact Int64.toInt_ofInt_of_le (by omega) (by omega)

theorem offsetBinary_lawful {width : Nat} (h : offsetBinary.checkWidth width = .ok ()) :
    offsetBinary.Lawful width := by
  have hw := offsetBinaryWidth_eq_ok.1 h
  refine ⟨fun v bits henc => ?_, fun v bits henc => ?_, fun bits hbits => ?_⟩
  · obtain ⟨-, v, rfl, -, hfield⟩ := offsetBinaryEncode_eq_ok.1 henc
    exact binary_writeField hfield
  · obtain ⟨-, v, rfl, -, hfield⟩ := offsetBinaryEncode_eq_ok.1 henc
    have hlength : bits.length = width := (binary_writeField hfield).length_eq
    simp only [offsetBinary, toNat_writeField hfield, hlength, Int.add_sub_cancel,
      Int64.ofInt_toInt]
  · have hlength : bits.length = width := hbits.length_eq
    have hlt := Field.toNat_lt bits
    have hsum := bias_add_upper width
    rw [hlength] at hlt
    refine offsetBinaryEncode_eq_ok.2 ⟨hw, _, rfl, ?_, ?_⟩
    · rw [hlength, toInt_ofInt_sub_bias hw hlength]
      omega
    · rw [hlength, toInt_ofInt_sub_bias hw hlength, Int.sub_add_cancel]
      exact writeField_toNat hbits

/-! ### Packed vectors -/

theorem firstChunks_eq {β : Type} {size : Nat} (hs : 0 < size) {count count' : Nat} {xs : List β}
    (h : xs.length ≤ count) (h' : xs.length ≤ count') :
    firstChunks size count xs = firstChunks size count' xs := by
  induction count generalizing count' xs with
  | zero =>
    obtain rfl := List.length_eq_zero_iff.1 (Nat.le_zero.1 h)
    cases count' <;> rfl
  | succ count ih =>
    cases xs with
    | nil => cases count' <;> rfl
    | cons x xs =>
      obtain ⟨c, rfl⟩ : ∃ c, count' = c + 1 := ⟨count' - 1, by simp at h'; omega⟩
      have hdrop : ((x :: xs).drop size).length ≤ xs.length := by simp; omega
      rw [firstChunks, firstChunks,
        ih (hdrop.trans (by simpa using h)) (hdrop.trans (by simpa using h'))]

/-- A list is cut into its first piece and the pieces of the rest. -/
theorem chunks_append {β : Type} {size : Nat} (hs : 0 < size) {field : List β}
    (hfield : field.length = size) (rest : List β) :
    chunks size (field ++ rest) = field :: chunks size rest := by
  obtain ⟨x, xs, hxs⟩ : ∃ x xs, field ++ rest = x :: xs :=
    List.exists_cons_of_length_pos (by rw [List.length_append]; omega)
  rw [chunks, hxs, List.length_cons, firstChunks, ← hxs, List.take_left' hfield,
    List.drop_left' hfield, chunks]
  congr 1
  refine firstChunks_eq hs ?_ (Nat.le_refl _)
  have := congrArg List.length hxs
  rw [List.length_append, List.length_cons] at this
  omega

theorem packedWidth_eq_ok {count entryWidth width : Nat} :
    packedWidth count entryWidth width = .ok () ↔
      entryWidth ≤ maxWidth ∧ width = count * entryWidth := by
  unfold packedWidth packedTotal
  by_cases hw : maxWidth < entryWidth
  · simp [hw]
  · by_cases htotal : width = count * entryWidth
    · simp [hw, htotal]
      omega
    · simp [hw, htotal]

theorem packedEncode_eq_ok {count entryWidth width : Nat} {value : Value} {bits : List UInt8} :
    packedEncode count entryWidth value width = .ok bits ↔
      packedWidth count entryWidth width = .ok () ∧
        ∃ vs, value = .vector vs ∧ vs.length = count ∧ packedFields entryWidth 0 vs = .ok bits := by
  unfold packedEncode
  cases hwidth : packedWidth count entryWidth width with
  | error e => simp [bind, Except.bind]
  | ok u =>
    cases value with
    | int v => simp [bind, Except.bind]
    | vector vs =>
      by_cases hcount : vs.length = count
      · simp [hcount, bind, Except.bind, inDomain_eq_ok]
      · simp [hcount, bind, Except.bind]

theorem packedFields_cons {entryWidth index : Nat} {v : Int64} {vs : List Int64}
    {bits : List UInt8} :
    packedFields entryWidth index (v :: vs) = .ok bits ↔
      ∃ field fields, writeField v.toInt entryWidth = .ok field ∧
        packedFields entryWidth (index + 1) vs = .ok fields ∧ field ++ fields = bits := by
  rw [packedFields]
  cases writeField v.toInt entryWidth with
  | error fault => simp
  | ok field =>
    cases packedFields entryWidth (index + 1) vs with
    | error fault => simp
    | ok fields => simp

theorem binary_packedFields {entryWidth index : Nat} {vs : List Int64} {bits : List UInt8}
    (h : packedFields entryWidth index vs = .ok bits) :
    (⟨bits⟩ : BitString).Binary (vs.length * entryWidth) := by
  induction vs generalizing index bits with
  | nil =>
    obtain rfl : [] = bits := by simpa [packedFields] using h
    exact ⟨by simp [BitString.length], by simp⟩
  | cons v vs ih =>
    obtain ⟨field, fields, hfield, hfields, rfl⟩ := packedFields_cons.1 h
    rw [List.length_cons, Nat.add_mul, Nat.one_mul, Nat.add_comm]
    exact (binary_writeField hfield).append (ih hfields)

/-- The entries are read back from the fields. -/
theorem packedDecode_packedFields {count entryWidth index : Nat} {vs : List Int64}
    {bits : List UInt8} (hcount : vs.length = count)
    (h : packedFields entryWidth index vs = .ok bits) :
    packedDecode count entryWidth bits = .vector vs := by
  rw [packedDecode]
  by_cases hzero : entryWidth = 0
  · subst hzero
    rw [if_pos rfl, ← hcount]
    refine congrArg Value.vector (List.eq_replicate_iff.2 ⟨rfl, ?_⟩).symm
    clear hcount
    induction vs generalizing index bits with
    | nil => simp
    | cons v vs ih =>
      obtain ⟨field, fields, hfield, hfields, rfl⟩ := packedFields_cons.1 h
      obtain ⟨hnonneg, hsmall, -⟩ := writeField_eq_ok.1 hfield
      -- a field of no bits holds zero alone
      have hv : v.toInt = 0 := by
        simp only [Nat.pow_eq, Nat.pow_zero] at hsmall
        omega
      intro b hb
      rcases List.mem_cons.1 hb with rfl | hb
      · exact Int64.toInt_inj.1 hv
      · exact ih hfields b hb
  · rw [if_neg hzero]
    refine congrArg Value.vector ?_
    clear hcount
    induction vs generalizing index bits with
    | nil =>
      obtain rfl : [] = bits := by simpa [packedFields] using h
      rfl
    | cons v vs ih =>
      obtain ⟨field, fields, hfield, hfields, rfl⟩ := packedFields_cons.1 h
      rw [chunks_append (Nat.pos_of_ne_zero hzero) (binary_writeField hfield).length_eq,
        List.map_cons, ih hfields, toNat_writeField hfield, Int64.ofInt_toInt]

/-- Every field of zeros and ones is that of the vector that is read from it. -/
theorem packedFields_packedDecode {count entryWidth : Nat} {bits : List UInt8} (index : Nat)
    (hw : entryWidth ≤ maxWidth) (h : (⟨bits⟩ : BitString).Binary (count * entryWidth)) :
    ∃ vs, packedDecode count entryWidth bits = .vector vs ∧ vs.length = count ∧
      packedFields entryWidth index vs = .ok bits := by
  rw [packedDecode]
  by_cases hzero : entryWidth = 0
  · subst hzero
    obtain rfl : bits = [] := List.length_eq_zero_iff.1 h.length_eq
    refine ⟨List.replicate count 0, if_pos rfl, List.length_replicate, ?_⟩
    clear h
    induction count generalizing index with
    | zero => rfl
    | succ count ih =>
      rw [List.replicate_succ]
      exact packedFields_cons.2 ⟨[], [], rfl, ih (index + 1), rfl⟩
  · refine ⟨_, if_neg hzero, ?_⟩
    induction count generalizing index bits with
    | zero =>
      rw [Nat.zero_mul] at h
      obtain rfl : bits = [] := List.length_eq_zero_iff.1 h.length_eq
      exact ⟨rfl, rfl⟩
    | succ count ih =>
      rw [Nat.add_mul, Nat.one_mul, Nat.add_comm] at h
      have hfirst := h.take
      obtain ⟨hlength, hfields⟩ := ih (index + 1) h.drop
      rw [← List.take_append_drop entryWidth bits,
        chunks_append (Nat.pos_of_ne_zero hzero) hfirst.length_eq, List.map_cons]
      refine ⟨by rw [List.length_cons, hlength], packedFields_cons.2 ⟨_, _, ?_, hfields, rfl⟩⟩
      rw [toInt_ofInt_toNat hw hfirst.length_eq]
      exact writeField_toNat hfirst

theorem packed_lawful {count entryWidth width : Nat}
    (h : (packed count entryWidth).checkWidth width = .ok ()) :
    (packed count entryWidth).Lawful width := by
  obtain ⟨hw, rfl⟩ := packedWidth_eq_ok.1 h
  refine ⟨fun v bits henc => ?_, fun v bits henc => ?_, fun bits hbits => ?_⟩
  · obtain ⟨-, vs, rfl, hcount, hfields⟩ := packedEncode_eq_ok.1 henc
    rw [← hcount]
    exact binary_packedFields hfields
  · obtain ⟨-, vs, rfl, hcount, hfields⟩ := packedEncode_eq_ok.1 henc
    exact packedDecode_packedFields hcount hfields
  · obtain ⟨vs, hdecode, hcount, hfields⟩ := packedFields_packedDecode 0 hw hbits
    exact packedEncode_eq_ok.2 ⟨h, vs, hdecode, hcount, hfields⟩

/-- The library's own encodings are lawful at every width that they take. -/
theorem BuiltIn.lawful {e : Encoding} (he : BuiltIn e) {width : Nat}
    (h : e.checkWidth width = .ok ()) : e.Lawful width := by
  cases he with
  | unsigned => exact unsigned_lawful h
  | offsetBinary => exact offsetBinary_lawful h
  | packed => exact packed_lawful h

end Encoding

end QuboProbe
