/-
  QuboProbe.Proofs.Encoding.Words

  The encodings keep to words of 64 bits.  Every value is encoded in words as
  it is in integers (`Word.unsignedEncode?_eq` and its siblings): whatever the
  value and the width, no sum overflows and no shift is by too many places,
  because the checks come first.  Fields of at most 62 bits are decoded in
  words as they are in integers.

  A word is known by its signed value, so each operation has one lemma that
  gives the signed value of its result.
-/
import QuboProbe.Encoding.Words
import QuboProbe.Proofs.Encoding.Lawful

namespace QuboProbe

/-- The digits of a number are its bits. -/
theorem Field.ofNat_eq_map (width n : Nat) :
    ofNat width n = (List.range width).map fun k => if n.testBit k then 1 else 0 := by
  induction width generalizing n with
  | zero => rfl
  | succ width ih =>
    have hlow : (if n % 2 = 0 then (0 : UInt8) else 1) = if n.testBit 0 then 1 else 0 := by
      rcases Nat.mod_two_eq_zero_or_one n with h | h <;> simp [h]
    rw [ofNat, ih, List.range_succ_eq_map, List.map_cons, List.map_map, hlow]
    exact congrArg _ (List.map_congr_left fun k _ => by
      rw [Function.comp_apply, Nat.testBit_succ])

/-- If every item is mapped to something, so is the list. -/
theorem mapM_eq_some_map {α β : Type} {f : α → Option β} {g : α → β} {xs : List α}
    (h : ∀ x ∈ xs, f x = some (g x)) : xs.mapM f = some (xs.map g) := by
  induction xs with
  | nil => rfl
  | cons x xs ih =>
    rw [List.mapM_cons, h x List.mem_cons_self, ih fun y hy => h y (List.mem_cons_of_mem x hy)]
    rfl

namespace Word

/-! ## Operations -/

theorem add?_eq {x y : Word} (hlow : -9223372036854775808 ≤ x.toInt + y.toInt)
    (hhigh : x.toInt + y.toInt < 9223372036854775808) :
    ∃ z, add? x y = some z ∧ z.toInt = x.toInt + y.toInt := by
  have hfits : ¬x.saddOverflow y = true := by
    simp only [BitVec.saddOverflow, Bool.or_eq_true, decide_eq_true_eq]
    omega
  exact ⟨x + y, by rw [add?, if_neg hfits], BitVec.toInt_add_of_not_saddOverflow hfits⟩

theorem sub?_eq {x y : Word} (hlow : -9223372036854775808 ≤ x.toInt - y.toInt)
    (hhigh : x.toInt - y.toInt < 9223372036854775808) :
    ∃ z, sub? x y = some z ∧ z.toInt = x.toInt - y.toInt := by
  have hfits : ¬x.ssubOverflow y = true := by
    simp only [BitVec.ssubOverflow, Bool.or_eq_true, decide_eq_true_eq]
    omega
  exact ⟨x - y, by rw [sub?, if_neg hfits], BitVec.toInt_sub_of_not_ssubOverflow hfits⟩

theorem neg?_eq {x : Word} (h : -9223372036854775808 < x.toInt) :
    ∃ z, neg? x = some z ∧ z.toInt = -x.toInt := by
  have hfits : ¬x.negOverflow = true := by
    simp only [BitVec.negOverflow, beq_iff_eq]
    omega
  exact ⟨-x, by rw [neg?, if_neg hfits], BitVec.toInt_neg_of_not_negOverflow hfits⟩

/-- A word that is not negative is the unsigned number of its bits. -/
theorem toInt_eq_toNat {v : Word} (h : 0 ≤ v.toInt) : v.toInt = v.toNat := by
  refine BitVec.toInt_eq_toNat_of_msb ?_
  rw [BitVec.msb_eq_toInt, decide_eq_false_iff_not]
  omega

/-! ## Fields of one integer -/

/-- The lowest place of a word. -/
theorem lowByte_and_one (v : Word) : lowByte (v &&& 1) = if v.getLsbD 0 then 1 else 0 := by
  have hone : v &&& 1 = (BitVec.ofBool (v.getLsbD 0)).setWidth 64 :=
    BitVec.and_one_eq_setWidth_ofBool_getLsbD
  rw [hone]
  cases v.getLsbD 0 <;> decide

/-- A place of a word, moved to the lowest. -/
theorem lowByte_sshiftRight (v : Word) {k : Nat} (hk : k < 64) :
    lowByte (v.sshiftRight k &&& 1) = if v.toNat.testBit k then 1 else 0 := by
  rw [lowByte_and_one, BitVec.getLsbD_sshiftRight, Nat.add_zero, if_pos hk]
  rfl

theorem lowByte_ushiftRight (v : Word) (k : Nat) :
    lowByte (v >>> k &&& 1) = if v.toNat.testBit k then 1 else 0 := by
  rw [lowByte_and_one, BitVec.getLsbD_ushiftRight, Nat.add_zero]
  rfl

theorem fieldBits?_eq (v : Word) {width : Nat} (hw : width ≤ 64) :
    fieldBits? v width = some (Field.ofNat width v.toNat) := by
  rw [fieldBits?, Field.ofNat_eq_map]
  refine mapM_eq_some_map fun k hk => ?_
  have hplace : k < 64 := Nat.lt_of_lt_of_le (List.mem_range.1 hk) hw
  rw [sshiftRight?, if_pos hplace, Option.map_some, lowByte_sshiftRight v hplace]

/-- The shift without a sign finds the same places. -/
theorem indexBits?_eq (index : Word) {n : Nat} (hn : n ≤ 64) :
    indexBits? index n = some (BitString.ofIndex n index.toNat).bytes := by
  rw [indexBits?, BitString.ofIndex, Field.ofNat_eq_map]
  refine mapM_eq_some_map fun k hk => ?_
  have hplace : k < 64 := Nat.lt_of_lt_of_le (List.mem_range.1 hk) hn
  rw [ushiftRight?, if_pos hplace, Option.map_some, lowByte_ushiftRight]

/-- What is left beyond the places of a field tells whether the number is too large for it. -/
theorem ushiftRight_eq_zero (v : Word) (width : Nat) :
    v >>> width = 0 ↔ v.toNat < Nat.pow 2 width := by
  rw [← BitVec.toNat_inj, BitVec.toNat_ushiftRight, Nat.shiftRight_eq_div_pow]
  exact Nat.div_eq_zero_iff_lt (Nat.pow_pos (by decide))

theorem writeField?_eq (v : Word) {width : Nat} (hw : width < 64) :
    writeField? v width = some (Encoding.writeField v.toInt width) := by
  have hzero : (0 : Word).toInt = 0 := rfl
  rw [writeField?, Encoding.writeField, BitVec.slt_eq_decide, hzero]
  -- a negative word is refused before it is shifted, so the shifted one is an unsigned number
  by_cases hneg : v.toInt < 0
  · simp only [hneg, decide_true, if_true]
  · have hvalue := toInt_eq_toNat (Int.not_lt.1 hneg)
    have hnat : v.toInt.toNat = v.toNat := by omega
    rw [if_neg (by simpa using hneg), if_neg hneg, ushiftRight?, if_pos hw, Option.bind_some, hnat]
    by_cases hlarge : Nat.pow 2 width ≤ v.toNat
    · have hbeyond : v >>> width ≠ 0 := fun h =>
        Nat.not_lt.2 hlarge ((ushiftRight_eq_zero v width).1 h)
      rw [if_pos hbeyond, if_pos hlarge]
    · have hbeyond : v >>> width = 0 := (ushiftRight_eq_zero v width).2 (Nat.lt_of_not_le hlarge)
      rw [if_neg (not_not.2 hbeyond), if_neg hlarge, fieldBits?_eq v (Nat.le_of_lt hw),
        Option.map_some]

/-- A byte's lowest bit, at its place in a word. -/
theorem toNat_ofByte_shiftLeft (b : UInt8) {k : Nat} (hk : k < 64) :
    (ofByte (b &&& 1) <<< k).toNat = 2 ^ k * (b.toNat % 2) := by
  have hbyte : (ofByte (b &&& 1)).toNat = b.toNat % 2 := by
    have hbit : (b &&& 1).toNat = b.toNat % 2 := by
      rw [UInt8.toNat_and]
      exact Nat.and_one_is_mod b.toNat
    rw [ofByte, BitVec.toNat_setWidth, UInt8.toNat_toBitVec, hbit]
    omega
  have hpow : 2 ^ k * 2 ≤ 2 ^ 64 := by
    rw [← Nat.pow_succ]
    exact Nat.pow_le_pow_right (by decide) hk
  have hbit : 2 ^ k * (b.toNat % 2) ≤ 2 ^ k * 1 := Nat.mul_le_mul_left _ (by omega)
  have hpos : 0 < 2 ^ k := Nat.pow_pos (by decide)
  rw [BitVec.toNat_shiftLeft, hbyte, Nat.shiftLeft_eq, Nat.mul_comm, Nat.mod_eq_of_lt (by omega)]

/-- What is read from the places from `k` on is joined to what stands below them. -/
theorem foldlM_readField (bits : List UInt8) {k : Nat} {acc : Word} (hacc : acc.toNat < 2 ^ k)
    (hk : k + bits.length < 64) :
    ∃ r, (bits.zipIdx k).foldlM
        (fun acc b => (shiftLeft? (ofByte (b.1 &&& 1)) b.2).map (acc ||| ·)) acc = some r ∧
      r.toNat = acc.toNat + 2 ^ k * Field.toNat bits := by
  induction bits generalizing k acc with
  | nil => exact ⟨acc, rfl, by rw [Field.toNat, Nat.mul_zero, Nat.add_zero]⟩
  | cons b bits ih =>
    rw [List.length_cons] at hk
    have hplace : k < 64 := by omega
    -- the bit stands above all that is there, so joining it adds it
    have hjoin : (acc ||| ofByte (b &&& 1) <<< k).toNat = 2 ^ k * (b.toNat % 2) + acc.toNat := by
      rw [BitVec.toNat_or, toNat_ofByte_shiftLeft b hplace, Nat.or_comm,
        Nat.two_pow_add_eq_or_of_lt hacc]
    have hbelow : (acc ||| ofByte (b &&& 1) <<< k).toNat < 2 ^ (k + 1) := by
      have : 2 ^ k * (b.toNat % 2) ≤ 2 ^ k * 1 := Nat.mul_le_mul_left _ (by omega)
      rw [hjoin, Nat.pow_succ]
      omega
    obtain ⟨r, hr, hvalue⟩ := ih hbelow (by omega)
    refine ⟨r, ?_, ?_⟩
    · rw [List.zipIdx_cons, List.foldlM_cons, shiftLeft?, if_pos hplace]
      exact hr
    · rw [hvalue, hjoin, Field.toNat, Nat.pow_succ]
      ring

theorem readField?_eq (bits : List UInt8) (h : bits.length < 64) :
    ∃ r, readField? bits = some r ∧ r.toNat = Field.toNat bits := by
  obtain ⟨r, hr, hvalue⟩ := foldlM_readField bits (k := 0) (show (0#64).toNat < 2 ^ 0 by decide)
    (by omega)
  refine ⟨r, hr, ?_⟩
  rw [hvalue, Nat.pow_zero, Nat.one_mul]
  exact Nat.zero_add _

/-- A field of at most 62 bits is no negative number. -/
theorem readField?_eq_toInt {bits : List UInt8} (h : bits.length ≤ Encoding.maxWidth) :
    ∃ r, readField? bits = some r ∧ r.toInt = Field.toNat bits := by
  rw [Encoding.maxWidth] at h
  obtain ⟨r, hr, hvalue⟩ := readField?_eq bits (by omega)
  have hsmall : Field.toNat bits < 2 ^ 62 := Encoding.toNat_lt_of_width h rfl
  refine ⟨r, hr, ?_⟩
  rw [BitVec.toInt_eq_toNat_of_lt (by omega), hvalue]

theorem ofBitVec_eq (r : Word) : Int64.ofBitVec r = Int64.ofInt r.toInt := by
  refine Int64.toInt_inj.1 ?_
  rw [Int64.toInt_ofInt]
  exact (BitVec.toInt_bmod_cancel r).symm

/-! ## Encodings -/

theorem unsignedEncode?_eq (value : Value) (width : Nat) :
    unsignedEncode? value width = some (Encoding.unsignedEncode value width) := by
  unfold unsignedEncode? Encoding.unsignedEncode
  cases hwidth : Encoding.unsignedWidth width with
  | error e => rfl
  | ok u =>
    have hw := Encoding.unsignedWidth_eq_ok.1 hwidth
    rw [Encoding.maxWidth] at hw
    cases value with
    | vector vs => rfl
    | int v =>
      dsimp only
      rw [writeField?_eq v.toBitVec (by omega)]
      rfl

theorem unsignedDecode?_eq {bits : List UInt8} (h : bits.length ≤ Encoding.maxWidth) :
    unsignedDecode? bits = some (Encoding.unsigned.decode bits) := by
  obtain ⟨r, hr, hvalue⟩ := readField?_eq_toInt h
  rw [unsignedDecode?, hr, Option.map_some, toValue, ofBitVec_eq, hvalue]
  rfl

theorem bias?_eq {width : Nat} (hw : width ≤ Encoding.maxWidth) :
    ∃ b, bias? width = some b ∧ b.toInt = Encoding.bias width := by
  cases width with
  | zero => exact ⟨0, rfl, rfl⟩
  | succ w =>
    rw [Encoding.maxWidth] at hw
    have hpow : 2 ^ w ≤ 2 ^ 61 := Nat.pow_le_pow_right (by decide) (by omega)
    have hvalue : ((1 : Word) <<< w).toNat = 2 ^ w := by
      rw [BitVec.toNat_shiftLeft, Nat.shiftLeft_eq]
      show 1 * 2 ^ w % 2 ^ 64 = 2 ^ w
      omega
    refine ⟨(1 : Word) <<< w, ?_, ?_⟩
    · rw [bias?, if_neg (Nat.succ_ne_zero w), Nat.add_sub_cancel, shiftLeft?, if_pos (by omega)]
    · rw [BitVec.toInt_eq_toNat_of_lt (by omega), hvalue]
      rfl

theorem toInt_upper {width : Nat} {bias : Word} (h : bias.toInt = Encoding.bias width) :
    (if width = 0 then 1 else bias).toInt = Encoding.upper width := by
  cases width with
  | zero => rfl
  | succ w =>
    rw [if_neg (Nat.succ_ne_zero w), h]
    rfl

theorem offsetBinaryEncode?_eq (value : Value) (width : Nat) :
    offsetBinaryEncode? value width = some (Encoding.offsetBinaryEncode value width) := by
  -- the kind of the value is checked first, then the width, then the range
  cases value with
  | vector vs => rfl
  | int v =>
    rw [offsetBinaryEncode?, Encoding.offsetBinaryEncode]
    cases hwidth : Encoding.offsetBinaryWidth width with
    | error e => rfl
    | ok u =>
      have hw := Encoding.offsetBinaryWidth_eq_ok.1 hwidth
      have hbound := Encoding.bias_le hw
      have hsum := Encoding.bias_add_upper width
      have hpow : Nat.pow 2 width ≤ 2 ^ 62 := Nat.pow_le_pow_right (by decide) hw
      obtain ⟨bias, hbias, hbiasValue⟩ := bias?_eq hw
      -- the bias is at most 2^61, so it can be negated
      obtain ⟨low, hlow, hlowValue⟩ := neg?_eq (x := bias) (by omega)
      have hv : v.toBitVec.toInt = v.toInt := rfl
      simp only [hbias, hlow, Option.bind_eq_bind, Option.bind_some, Bool.or_eq_true,
        BitVec.slt_iff_toInt_lt, BitVec.sle_iff_toInt_le, toInt_upper hbiasValue, hlowValue,
        hbiasValue, hv]
      show _ = some (if v.toInt < -(Encoding.bias width : Int) ∨
        (Encoding.upper width : Int) ≤ v.toInt then _ else _)
      by_cases hrange : v.toInt < -(Encoding.bias width : Int) ∨
          (Encoding.upper width : Int) ≤ v.toInt
      · rw [if_pos hrange, if_pos hrange]
      · -- in the range of the scheme, the sum is a number of the field
        obtain ⟨stored, hstored, hvalue⟩ := add?_eq (x := v.toBitVec) (y := bias) (by omega)
          (by omega)
        rw [Encoding.maxWidth] at hw
        rw [if_neg hrange, if_neg hrange, hstored, Option.bind_some,
          writeField?_eq stored (by omega), hvalue, hbiasValue, hv, Option.map_some]

theorem offsetBinaryDecode?_eq {bits : List UInt8} (h : bits.length ≤ Encoding.maxWidth) :
    offsetBinaryDecode? bits = some (Encoding.offsetBinary.decode bits) := by
  have hsmall : Field.toNat bits < 2 ^ 62 := Encoding.toNat_lt_of_width h rfl
  have hbound := Encoding.bias_le h
  obtain ⟨stored, hstored, hstoredValue⟩ := readField?_eq_toInt h
  obtain ⟨bias, hbias, hbiasValue⟩ := bias?_eq h
  -- both are small and not negative, and so is the distance of any two such
  obtain ⟨v, hv, hvalue⟩ := sub?_eq (x := stored) (y := bias) (by omega) (by omega)
  rw [offsetBinaryDecode?, hstored, hbias]
  show (sub? stored bias).map toValue = _
  rw [hv, Option.map_some, toValue, ofBitVec_eq, hvalue, hstoredValue, hbiasValue]
  rfl

/-! ### Packed vectors -/

theorem packedFields?_eq {entryWidth : Nat} (hw : entryWidth < 64) (index : Nat)
    (vs : List Int64) :
    packedFields? entryWidth index vs = some (Encoding.packedFields entryWidth index vs) := by
  induction vs generalizing index with
  | nil => rfl
  | cons v vs ih =>
    rw [packedFields?, Encoding.packedFields, writeField?_eq v.toBitVec hw, Option.bind_some]
    have hv : v.toBitVec.toInt = v.toInt := rfl
    rw [hv]
    cases Encoding.writeField v.toInt entryWidth with
    | error fault => rfl
    | ok field =>
      refine (congrArg (Option.map _) (ih (index + 1))).trans ?_
      cases Encoding.packedFields entryWidth (index + 1) vs <;> rfl

theorem packedEncode?_eq {count entryWidth : Nat}
    (hfits : count * entryWidth < 18446744073709551616) (value : Value) (width : Nat) :
    packedEncode? count entryWidth value width =
      some (Encoding.packedEncode count entryWidth value width) := by
  have hwidth : packedWidth? count entryWidth width =
      some (Encoding.packedWidth count entryWidth width) := by
    rw [packedWidth?, Encoding.packedWidth, sizeMul?, if_pos hfits, Option.map_some]
    by_cases hw : Encoding.maxWidth < entryWidth
    · rw [if_pos hw, if_pos hw]
    · rw [if_neg hw, if_neg hw]
      rfl
  unfold packedEncode? Encoding.packedEncode
  rw [hwidth, Option.bind_some]
  cases hchecked : Encoding.packedWidth count entryWidth width with
  | error e => rfl
  | ok u =>
    have hw := (Encoding.packedWidth_eq_ok.1 hchecked).1
    rw [Encoding.maxWidth] at hw
    cases value with
    | int v => rfl
    | vector vs =>
      show (if vs.length ≠ count then _ else _) = some (if vs.length ≠ count then _ else _)
      by_cases hcount : vs.length ≠ count
      · rw [if_pos hcount, if_pos hcount]
      · rw [if_neg hcount, if_neg hcount, packedFields?_eq (by omega), Option.map_some]

theorem length_le_of_mem_firstChunks {β : Type} {size count : Nat} {xs piece : List β}
    (h : piece ∈ firstChunks size count xs) : piece.length ≤ size := by
  induction count generalizing xs with
  | zero => exact absurd h List.not_mem_nil
  | succ count ih =>
    cases xs with
    | nil => exact absurd h List.not_mem_nil
    | cons x xs =>
      rw [firstChunks] at h
      rcases List.mem_cons.1 h with rfl | h
      · exact List.length_take_le size (x :: xs)
      · exact ih h

theorem packedDecode?_eq {count entryWidth : Nat} (hw : entryWidth ≤ Encoding.maxWidth)
    (bits : List UInt8) :
    packedDecode? count entryWidth bits = some (Encoding.packedDecode count entryWidth bits) := by
  rw [packedDecode?, Encoding.packedDecode]
  by_cases hzero : entryWidth = 0
  · rw [if_pos hzero, if_pos hzero]
  · rw [if_neg hzero, if_neg hzero]
    have hpieces : (chunks entryWidth bits).mapM
        (fun b => (readField? b).map Int64.ofBitVec) =
        some ((chunks entryWidth bits).map fun b => Int64.ofInt (Field.toNat b)) := by
      -- the last piece may be shorter, but none is longer than an entry
      refine mapM_eq_some_map fun b hb => ?_
      have hlength : b.length ≤ entryWidth := length_le_of_mem_firstChunks hb
      obtain ⟨r, hr, hvalue⟩ := readField?_eq_toInt (hlength.trans hw)
      rw [hr, Option.map_some, ofBitVec_eq, hvalue]
    rw [hpieces, Option.map_some]

end Word

end QuboProbe
