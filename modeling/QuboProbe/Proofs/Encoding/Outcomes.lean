/-
  QuboProbe.Proofs.Encoding.Outcomes

  What the library's encodings make of any value at any width.  There are three
  outcomes: the bits of the value, the refusal of the width, and a fault of the
  value in the name of the encoding.  `Encoding.Classifies` says which of them
  arises when.  It holds of each encoding (`Encoding.builtIn_outcomes`), whose
  faults are those of `UnsignedFault`, `OffsetBinaryFault` and `PackedFault`: of
  a vector, the first entry that is out of range is at fault.

  The encodings check in different orders.  Offset binary looks at the kind of a
  value before the width and at the range before it adds the bias, so it never
  reaches a fault of the field that it writes, which would bear another name.
-/
import QuboProbe.Proofs.Encoding.Bijection

namespace QuboProbe.Encoding

/-! ## Outcomes -/

/-- What becomes of a value at a width.  The width is looked at for the values that are `asked`
for it, and what is at fault with a value outside of the domain is a `Fault` of it. -/
structure Classifies (e : Encoding) (asked domain : Set Value)
    (Fault : Value → DomainFault → Prop) (value : Value) (width : Nat) : Prop where
  accepts : (∃ bits, e.encode value width = .ok bits) ↔
    e.checkWidth width = .ok () ∧ value ∈ domain
  refusesWidth : (∃ w fault, e.encode value width = .error (.width e.name w fault)) ↔
    value ∈ asked ∧ e.checkWidth width ≠ .ok ()
  sameRefusal : value ∈ asked → ∀ error, e.checkWidth width = .error error →
    e.encode value width = .error error
  refusesValue : (∃ fault, e.encode value width = .error (.domain e.name fault)) ↔
    (value ∈ asked → e.checkWidth width = .ok ()) ∧ value ∉ domain
  fault : ∀ fault, e.encode value width = .error (.domain e.name fault) → Fault value fault

/-- An encoding sorts the outcomes so if it passes on the refusal of a width and otherwise tells
the values of its domain from the others. -/
theorem Classifies.of_cases {e : Encoding} {asked domain : Set Value}
    {Fault : Value → DomainFault → Prop} {value : Value} {width : Nat} (hasked : domain ⊆ asked)
    (hwidth : ∀ error, e.checkWidth width = .error error →
      ∃ w fault, error = .width e.name w fault)
    (hrefused : value ∈ asked → ∀ error, e.checkWidth width = .error error →
      e.encode value width = .error error)
    (htaken : (value ∈ asked → e.checkWidth width = .ok ()) →
      (value ∈ domain ∧ ∃ bits, e.encode value width = .ok bits) ∨
        value ∉ domain ∧ ∃ fault, Fault value fault ∧
          e.encode value width = .error (.domain e.name fault)) :
    e.Classifies asked domain Fault value width := by
  by_cases htakes : value ∈ asked → e.checkWidth width = .ok ()
  · have hnot : ¬(value ∈ asked ∧ e.checkWidth width ≠ .ok ()) := fun h => h.2 (htakes h.1)
    rcases htaken htakes with ⟨hdomain, bits, hbits⟩ | ⟨hdomain, fault, hfault, herror⟩
    · have hok := htakes (hasked hdomain)
      refine ⟨?_, ?_, hrefused, ?_, ?_⟩
      · simp only [hbits, hok, hdomain, Except.ok.injEq, exists_eq', and_self]
      · simp only [hbits, hnot, reduceCtorEq, exists_false]
      · simp only [hbits, hdomain, reduceCtorEq, exists_false, not_true_eq_false, and_false]
      · intro fault herror
        rw [hbits] at herror
        cases herror
    · refine ⟨?_, ?_, hrefused, ?_, ?_⟩
      · simp only [herror, hdomain, reduceCtorEq, exists_false, and_false]
      · simp only [herror, hnot, Except.error.injEq, reduceCtorEq, exists_false]
      · exact iff_of_true ⟨fault, herror⟩ ⟨htakes, hdomain⟩
      · intro fault' herror'
        rw [herror] at herror'
        cases herror'
        exact hfault
  · -- the width is looked at and refused, whatever the value is
    obtain ⟨hin, hbad⟩ := Classical.not_imp.1 htakes
    obtain ⟨error, herror⟩ : ∃ error, e.checkWidth width = .error error := by
      cases h : e.checkWidth width with
      | error error => exact ⟨error, rfl⟩
      | ok u => exact absurd h hbad
    obtain ⟨w, fault, rfl⟩ := hwidth error herror
    have hencode := hrefused hin _ herror
    refine ⟨?_, ?_, hrefused, ?_, ?_⟩
    · simp only [hencode, hbad, reduceCtorEq, exists_false, false_and]
    · exact iff_of_true ⟨w, fault, hencode⟩ ⟨hin, hbad⟩
    · simp only [hencode, htakes, Except.error.injEq, reduceCtorEq, exists_false, false_and]
    · intro fault' hdomain
      rw [hencode] at hdomain
      cases hdomain

/-! ## Faults -/

/-- Why an integer has no field of a width. -/
inductive OutOfRange (width : Nat) (v : Int) : DomainFault → Prop where
  | negative (h : v < 0) : OutOfRange width v (.negative v)
  | tooLarge (h : 2 ^ width ≤ v) : OutOfRange width v (.tooLarge v width)

/-- Why a value is no unsigned integer of a width. -/
inductive UnsignedFault (width : Nat) : Value → DomainFault → Prop where
  | kind (vs : List Int64) : UnsignedFault width (.vector vs) (.wantsInt "vector")
  | range {v : Int64} {fault : DomainFault} (h : OutOfRange width v.toInt fault) :
      UnsignedFault width (.int v) fault

/-- Why a value is no integer in offset binary of a width. -/
inductive OffsetBinaryFault (width : Nat) : Value → DomainFault → Prop where
  | kind (vs : List Int64) : OffsetBinaryFault width (.vector vs) (.wantsInt "vector")
  | below {v : Int64} (h : v.toInt < -(bias width : Int)) :
      OffsetBinaryFault width (.int v) (.outside v.toInt (-(bias width : Int)) (upper width))
  | above {v : Int64} (h : (upper width : Int) ≤ v.toInt) :
      OffsetBinaryFault width (.int v) (.outside v.toInt (-(bias width : Int)) (upper width))

/-- Why a value is no vector of so many entries of a width: of the entries, the first that is out
of range. -/
inductive PackedFault (count entryWidth : Nat) : Value → DomainFault → Prop where
  | kind (v : Int64) : PackedFault count entryWidth (.int v) (.wantsVector "int")
  | arity {vs : List Int64} (h : vs.length ≠ count) :
      PackedFault count entryWidth (.vector vs) (.arity count vs.length)
  | entry {before after : List Int64} {v : Int64} {fault : DomainFault}
      (hcount : (before ++ v :: after).length = count)
      (hbefore : ∀ u ∈ before, 0 ≤ u.toInt ∧ u.toInt < 2 ^ entryWidth)
      (h : OutOfRange entryWidth v.toInt fault) :
      PackedFault count entryWidth (.vector (before ++ v :: after)) (.entry before.length fault)

/-- An integer either has a field or is out of range. -/
theorem writeField_cases (v : Int) (width : Nat) :
    (0 ≤ v ∧ v < 2 ^ width ∧ ∃ bits, writeField v width = .ok bits) ∨
      ¬(0 ≤ v ∧ v < 2 ^ width) ∧ ∃ fault, OutOfRange width v fault ∧
        writeField v width = .error fault := by
  have hcast : ((Nat.pow 2 width : Nat) : Int) = 2 ^ width := by simp
  by_cases hneg : v < 0
  · exact .inr ⟨by omega, _, .negative hneg, by rw [writeField, if_pos hneg]⟩
  · by_cases hlarge : Nat.pow 2 width ≤ v.toNat
    · have hle : 2 ^ width ≤ v := by omega
      refine .inr ⟨by omega, _, .tooLarge hle, ?_⟩
      rw [writeField, if_neg hneg, if_pos hlarge]
    · obtain ⟨hnonneg, hsmall⟩ : 0 ≤ v ∧ v < 2 ^ width := by omega
      exact .inl ⟨hnonneg, hsmall, exists_writeField_iff.2 ⟨hnonneg, hsmall⟩⟩

/-- Entries that do not all have a field are refused for the first that has none. -/
theorem packedFields_error {entryWidth : Nat} (index : Nat) {vs : List Int64}
    (hrange : ¬∀ v ∈ vs, 0 ≤ v.toInt ∧ v.toInt < 2 ^ entryWidth) :
    ∃ before v after fault, vs = before ++ v :: after ∧
      (∀ u ∈ before, 0 ≤ u.toInt ∧ u.toInt < 2 ^ entryWidth) ∧
      OutOfRange entryWidth v.toInt fault ∧
      packedFields entryWidth index vs = .error (.entry (index + before.length) fault) := by
  induction vs generalizing index with
  | nil => exact absurd (fun v hv => absurd hv List.not_mem_nil) hrange
  | cons v vs ih =>
    rcases writeField_cases v.toInt entryWidth with ⟨hnonneg, hsmall, field, hfield⟩ |
      ⟨-, fault, hfault, hfield⟩
    · -- this entry has a field, so the one at fault stands behind it
      have hrest : ¬∀ u ∈ vs, 0 ≤ u.toInt ∧ u.toInt < 2 ^ entryWidth := fun h =>
        hrange (List.forall_mem_cons.2 ⟨⟨hnonneg, hsmall⟩, h⟩)
      obtain ⟨before, u, after, fault, rfl, hbefore, hfault, herror⟩ := ih (index + 1) hrest
      refine ⟨v :: before, u, after, fault, rfl, ?_, hfault, ?_⟩
      · exact List.forall_mem_cons.2 ⟨⟨hnonneg, hsmall⟩, hbefore⟩
      · have hplace : index + (v :: before).length = index + 1 + before.length := by
          rw [List.length_cons]
          omega
        rw [packedFields, hfield, herror, hplace]
    · refine ⟨[], v, vs, fault, rfl, fun u hu => absurd hu List.not_mem_nil, hfault, ?_⟩
      rw [packedFields, hfield]
      rfl

/-! ## Unsigned integers -/

theorem unsignedWidth_error {width : Nat} {error : CodingError}
    (h : unsignedWidth width = .error error) :
    ∃ fault, error = .width "uint" width fault := by
  rw [unsignedWidth] at h
  split at h
  · exact ⟨_, (Except.error.inj h).symm⟩
  · cases h

/-- A width that is not taken is refused before the value is looked at. -/
theorem unsignedEncode_of_error {width : Nat} {error : CodingError}
    (h : unsignedWidth width = .error error) (value : Value) :
    unsignedEncode value width = .error error := by
  unfold unsignedEncode
  rw [h]
  rfl

theorem unsigned_outcomes (value : Value) (width : Nat) :
    unsigned.Classifies Set.univ (unsignedDomain width) (UnsignedFault width) value width := by
  refine .of_cases (Set.subset_univ _)
    (fun error h => ⟨width, (unsignedWidth_error h).imp fun _ h => h⟩)
    (fun _ error h => unsignedEncode_of_error h value) fun htakes => ?_
  have hw : unsignedWidth width = .ok () := htakes (Set.mem_univ value)
  cases value with
  | vector vs =>
    refine .inr ⟨?_, _, .kind vs, ?_⟩
    · rintro ⟨i, hi, -⟩
      cases hi
    · show unsignedEncode (.vector vs) width = _
      unfold unsignedEncode
      rw [hw]
      rfl
  | int v =>
    have hencode : unsigned.encode (.int v) width =
        inDomain "uint" (writeField v.toInt width) := by
      show unsignedEncode (.int v) width = _
      unfold unsignedEncode
      rw [hw]
      rfl
    rcases writeField_cases v.toInt width with ⟨hnonneg, hsmall, bits, hbits⟩ |
      ⟨hrange, fault, hfault, hfield⟩
    · exact .inl ⟨⟨v, rfl, hnonneg, hsmall⟩, bits, by rw [hencode, hbits, inDomain]⟩
    · refine .inr ⟨?_, fault, .range hfault, by rw [hencode, hfield, inDomain]; rfl⟩
      rintro ⟨i, hi, hin⟩
      cases hi
      exact hrange hin

/-! ## Offset binary -/

theorem offsetBinaryWidth_error {width : Nat} {error : CodingError}
    (h : offsetBinaryWidth width = .error error) :
    ∃ fault, error = .width "int" width fault := by
  rw [offsetBinaryWidth] at h
  split at h
  · exact ⟨_, (Except.error.inj h).symm⟩
  · cases h

theorem offsetBinary_outcomes (value : Value) (width : Nat) :
    offsetBinary.Classifies {v | ∃ i : Int64, v = .int i} (offsetBinaryDomain width)
      (OffsetBinaryFault width) value width := by
  refine .of_cases (fun v hv => ?_)
    (fun error h => ⟨width, (offsetBinaryWidth_error h).imp fun _ h => h⟩)
    (fun hint error h => ?_) fun htakes => ?_
  · obtain ⟨i, hi, -⟩ := mem_offsetBinaryDomain_iff.1 hv
    exact ⟨i, hi⟩
  · obtain ⟨i, rfl⟩ := hint
    have h : offsetBinaryWidth width = .error error := h
    show offsetBinaryEncode (.int i) width = .error error
    rw [offsetBinaryEncode, h]
    rfl
  · cases value with
    | vector vs =>
      refine .inr ⟨fun h => ?_, _, .kind vs, rfl⟩
      obtain ⟨i, hi, -⟩ := mem_offsetBinaryDomain_iff.1 h
      cases hi
    | int v =>
      have hw := offsetBinaryWidth_eq_ok.1 (htakes ⟨v, rfl⟩)
      have hencode : offsetBinary.encode (.int v) width =
          if v.toInt < -(bias width : Int) ∨ (upper width : Int) ≤ v.toInt then
            .error (.domain "int" (.outside v.toInt (-(bias width : Int)) (upper width)))
          else inDomain "uint" (writeField (v.toInt + bias width) width) := by
        show offsetBinaryEncode (.int v) width = _
        rw [offsetBinaryEncode, offsetBinaryWidth_eq_ok.2 hw]
        rfl
      by_cases hrange : v.toInt < -(bias width : Int) ∨ (upper width : Int) ≤ v.toInt
      · refine .inr ⟨fun h => ?_, _, hrange.elim .below .above, by rw [hencode, if_pos hrange]; rfl⟩
        obtain ⟨i, hi, hlow, hhigh⟩ := mem_offsetBinaryDomain_iff.1 h
        cases hi
        omega
      · -- in the range, the sum has a field, so no fault of the field is ever passed on
        have hdomain : Value.int v ∈ offsetBinaryDomain width :=
          mem_offsetBinaryDomain_iff.2 ⟨v, rfl, by omega, by omega⟩
        exact .inl ⟨hdomain, (mem_offsetBinaryDomain hw _).1 hdomain⟩

/-! ## Packed vectors -/

theorem packedWidth_error {count entryWidth width : Nat} {error : CodingError}
    (h : packedWidth count entryWidth width = .error error) :
    ∃ w fault, error = .width "uint_vector" w fault := by
  rw [packedWidth] at h
  split at h
  · exact ⟨_, _, (Except.error.inj h).symm⟩
  · split at h
    · exact ⟨_, _, (Except.error.inj h).symm⟩
    · cases h

/-- A width that is not taken is refused before the value is looked at. -/
theorem packedEncode_of_error {count entryWidth width : Nat} {error : CodingError}
    (h : packedWidth count entryWidth width = .error error) (value : Value) :
    packedEncode count entryWidth value width = .error error := by
  unfold packedEncode
  rw [h]
  rfl

theorem packed_outcomes (count entryWidth : Nat) (value : Value) (width : Nat) :
    (packed count entryWidth).Classifies Set.univ (packedDomain count entryWidth)
      (PackedFault count entryWidth) value width := by
  refine .of_cases (Set.subset_univ _) (fun error h => packedWidth_error h)
    (fun _ error h => packedEncode_of_error h value) fun htakes => ?_
  have hw : packedWidth count entryWidth width = .ok () := htakes (Set.mem_univ value)
  cases value with
  | int v =>
    refine .inr ⟨?_, _, .kind v, ?_⟩
    · rintro ⟨vs, hvs, -⟩
      cases hvs
    · show packedEncode count entryWidth (.int v) width = _
      unfold packedEncode
      rw [hw]
      rfl
  | vector vs =>
    have hencode : (packed count entryWidth).encode (.vector vs) width =
        if vs.length ≠ count then .error (.domain "uint_vector" (.arity count vs.length))
        else inDomain "uint_vector" (packedFields entryWidth 0 vs) := by
      show packedEncode count entryWidth (.vector vs) width = _
      unfold packedEncode
      rw [hw]
      rfl
    by_cases hcount : vs.length ≠ count
    · refine .inr ⟨?_, _, .arity hcount, by rw [hencode, if_pos hcount]; rfl⟩
      rintro ⟨us, hus, hlength, -⟩
      cases hus
      exact hcount hlength
    · have hlength := not_not.1 hcount
      rw [if_neg hcount] at hencode
      by_cases hrange : ∀ v ∈ vs, 0 ≤ v.toInt ∧ v.toInt < 2 ^ entryWidth
      · obtain ⟨bits, hbits⟩ := (exists_packedFields_iff 0).2 hrange
        exact .inl ⟨⟨vs, rfl, hlength, hrange⟩, bits, by rw [hencode, hbits, inDomain]⟩
      · obtain ⟨before, v, after, fault, rfl, hbefore, hfault, herror⟩ :=
          packedFields_error 0 hrange
        refine .inr ⟨?_, _, .entry hlength hbefore hfault, ?_⟩
        · rintro ⟨us, hus, -, hin⟩
          cases hus
          exact hrange hin
        · rw [hencode, herror, Nat.zero_add]
          rfl

/-! ## All of them -/

/-- Every value at every width has one of three outcomes in each of the library's encodings.  It is
encoded exactly if the width is taken and the value lies in the domain.  The width is refused, with
the error of the check, exactly if the check does not take it; offset binary looks at it only for
integers, whose kind it tests first.  In all other cases the value is at fault in the name of the
encoding, and of a vector it is the first entry out of range.  The computation in words gives the
same, so nothing on the way overflows or is shifted by too many places. -/
theorem builtIn_outcomes (value : Value) (width : Nat) :
    (unsigned.Classifies Set.univ (unsignedDomain width) (UnsignedFault width) value width ∧
      Word.unsignedEncode? value width = some (unsigned.encode value width)) ∧
    (offsetBinary.Classifies {v | ∃ i : Int64, v = .int i} (offsetBinaryDomain width)
        (OffsetBinaryFault width) value width ∧
      Word.offsetBinaryEncode? value width = some (offsetBinary.encode value width)) ∧
    ∀ count entryWidth, count * entryWidth < 18446744073709551616 →
      (packed count entryWidth).Classifies Set.univ (packedDomain count entryWidth)
        (PackedFault count entryWidth) value width ∧
      Word.packedEncode? count entryWidth value width =
        some ((packed count entryWidth).encode value width) := by
  refine ⟨⟨unsigned_outcomes value width, ?_⟩, ⟨offsetBinary_outcomes value width, ?_⟩,
    fun count entryWidth hfits => ⟨packed_outcomes count entryWidth value width, ?_⟩⟩
  · exact Word.unsignedEncode?_eq value width
  · exact Word.offsetBinaryEncode?_eq value width
  · exact Word.packedEncode?_eq hfits value width

/-- A vector with two entries out of range, of which the first is named. -/
theorem builtIn_outcomes_entries :
    let value : Value := .vector [3, -1, 4]
    3 * 2 < 18446744073709551616 ∧
    (packed 3 2).Classifies Set.univ (packedDomain 3 2) (PackedFault 3 2) value 6 ∧
    (packed 3 2).encode value 6 = .error (.domain "uint_vector" (.entry 1 (.negative (-1)))) ∧
    Word.packedEncode? 3 2 value 6 =
      some (.error (.domain "uint_vector" (.entry 1 (.negative (-1))))) := by
  intro value
  have hencode : (packed 3 2).encode value 6 =
      .error (.domain "uint_vector" (.entry 1 (.negative (-1)))) := by decide
  obtain ⟨hclass, hwords⟩ := (builtIn_outcomes value 6).2.2 3 2 (by decide)
  exact ⟨by decide, hclass, hencode, hencode ▸ hwords⟩

/-- The least word at the greatest width of offset binary. -/
example : offsetBinary.encode (.int Int64.minValue) 62 =
    .error (.domain "int" (.outside (-2 ^ 63) (-2 ^ 61) (2 ^ 61))) := by decide

end QuboProbe.Encoding
