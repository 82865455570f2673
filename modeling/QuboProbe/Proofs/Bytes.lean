/-
  QuboProbe.Proofs.Bytes

  Bits that are held as bytes other than zero and one.  A model takes a
  position as set when its byte is not zero, as `BitString.ofBytes` does, but
  the library's own encodings read the lowest bit of each byte
  (`Layout.decode_lowest`).  So a string of bytes is scored as the bits that are
  decoded from it exactly if none of its bytes is even without being zero
  (`bytes_read_alike`).
-/
import QuboProbe.Proofs.Compile.Canonical
import QuboProbe.Proofs.Validate.Exhaustive

namespace QuboProbe

/-! ## Normal forms of bytes -/

namespace BitString

/-- The lowest bit of every byte. -/
def lowest (bytes : List UInt8) : List UInt8 :=
  bytes.map fun b => if b.toNat % 2 = 0 then 0 else 1

@[simp] theorem length_lowest (bytes : List UInt8) : (lowest bytes).length = bytes.length :=
  List.length_map ..

theorem binary_lowest (bytes : List UInt8) :
    (⟨lowest bytes⟩ : BitString).Binary bytes.length where
  length_eq := length_lowest bytes
  bit b hb := by
    obtain ⟨c, -, rfl⟩ := List.mem_map.1 hb
    by_cases hc : c.toNat % 2 = 0
    · exact .inl (if_pos hc)
    · exact .inr (if_neg hc)

theorem binary_ofBytes (bytes : List UInt8) : (ofBytes bytes).Binary bytes.length where
  length_eq := List.length_map ..
  bit b hb := by
    obtain ⟨c, -, rfl⟩ := List.mem_map.1 hb
    by_cases hc : c = 0
    · exact .inl (if_pos hc)
    · exact .inr (if_neg hc)

/-- The lowest bits are the set positions, unless a byte is even without being zero. -/
theorem ofBytes_eq_lowest_iff {bytes : List UInt8} :
    (ofBytes bytes).bytes = lowest bytes ↔ ∀ b ∈ bytes, b = 0 ∨ b.toNat % 2 = 1 := by
  rw [ofBytes, lowest, List.map_inj_left]
  refine forall₂_congr fun b _ => ?_
  by_cases hzero : b = 0
  · simp [hzero]
  · by_cases heven : b.toNat % 2 = 0
    · simp [hzero, heven]
    · rw [if_neg hzero, if_neg heven]
      simp only [true_iff]
      omega

/-- The positions that are set stay set. -/
theorem active_ofBytes (bytes : List UInt8) : active (ofBytes bytes).bytes = active bytes := by
  have hzip (k : Nat) :
      (((ofBytes bytes).bytes.zipIdx k).filter fun b => b.1 != 0).map Prod.snd =
        ((bytes.zipIdx k).filter fun b => b.1 != 0).map Prod.snd := by
    induction bytes generalizing k with
    | nil => rfl
    | cons b bytes ih =>
      have hrest := ih (k + 1)
      by_cases hb : b = 0
      · simpa [ofBytes, hb] using hrest
      · simpa [ofBytes, hb] using hrest
  exact hzip 0

end BitString

theorem Field.toNat_lowest (bytes : List UInt8) : toNat (BitString.lowest bytes) = toNat bytes := by
  induction bytes with
  | nil => rfl
  | cons b bytes ih =>
    have hlow : (if b.toNat % 2 = 0 then (0 : UInt8) else 1).toNat % 2 = b.toNat % 2 := by
      split
      · rename_i heven
        simp [heven]
      · rename_i hodd
        simp only [UInt8.toNat_one]
        omega
    rw [BitString.lowest, List.map_cons, toNat, toNat, hlow]
    rw [BitString.lowest] at ih
    rw [ih]

/-! ## What reads bytes -/

theorem firstChunks_map {β γ : Type} (f : β → γ) (size count : Nat) (xs : List β) :
    firstChunks size count (xs.map f) = (firstChunks size count xs).map (List.map f) := by
  induction count generalizing xs with
  | zero => rfl
  | succ count ih =>
    cases xs with
    | nil => rfl
    | cons x xs =>
      rw [firstChunks, List.map_cons, firstChunks, ← List.map_cons, ← List.map_take,
        ← List.map_drop, ih]
      rfl

/-- The library's own encodings read the lowest bits. -/
theorem Encoding.BuiltIn.decode_lowest {e : Encoding} (he : e.BuiltIn) (bytes : List UInt8) :
    e.decode (BitString.lowest bytes) = e.decode bytes := by
  cases he with
  | unsigned => simp only [Encoding.unsigned, Field.toNat_lowest]
  | offsetBinary => simp only [Encoding.offsetBinary, Field.toNat_lowest, BitString.length_lowest]
  | packed count width =>
    have hchunks : chunks width (BitString.lowest bytes) =
        (chunks width bytes).map BitString.lowest := by
      rw [chunks, BitString.length_lowest, BitString.lowest, firstChunks_map, chunks]
      rfl
    simp only [Encoding.packed, packedDecode, hchunks, List.map_map, Function.comp_def,
      Field.toNat_lowest]

namespace Layout

variable {l : Layout}

theorem decode_lowest (hl : ∀ v ∈ l.vars, v.encoding.BuiltIn) (bytes : List UInt8) :
    l.decode (BitString.lowest bytes) = l.decode bytes := by
  have hfield (v : Variable) :
      v.field (BitString.lowest bytes) = BitString.lowest (v.field bytes) := by
    rw [Variable.field, Variable.field, BitString.lowest, ← List.map_drop, ← List.map_take]
    rfl
  have hvalues : l.vars.map (fun v => (v.name, v.encoding.decode (v.field (BitString.lowest bytes))))
      = l.vars.map fun v => (v.name, v.encoding.decode (v.field bytes)) :=
    List.map_congr_left fun v hv => by rw [hfield, (hl v hv).decode_lowest]
  rw [decode, decode, BitString.length_lowest, hvalues]

/-- Decoding tells the set positions from the lowest bits where they differ. -/
theorem decode_ofBytes_iff (hl : l.Built fun e _ => e.BuiltIn) {bytes : List UInt8}
    (hbytes : bytes.length = l.size) :
    l.decode (BitString.ofBytes bytes).bytes = l.decode bytes ↔
      ∀ b ∈ bytes, b = 0 ∨ b.toNat % 2 = 1 := by
  have hset := BitString.binary_ofBytes bytes
  have hlow := BitString.binary_lowest bytes
  rw [hbytes] at hset hlow
  rw [← decode_lowest (fun v hv => (hl.of_mem hv).1) bytes, ← BitString.ofBytes_eq_lowest_iff]
  refine ⟨fun h => ?_, fun h => by rw [h]⟩
  exact congrArg BitString.bytes (hl.wellFormed.injective hl.lawful _ _ hset hlow h)

end Layout

theorem Qubo.energy_ofBytes {α : Type} [Zero α] [Add α] (q : Qubo α) (bytes : List UInt8) :
    q.energy (BitString.ofBytes bytes).bytes = q.energy bytes := by
  have hlength : (BitString.ofBytes bytes).bytes.length = bytes.length := List.length_map ..
  rw [energy, energy, Matrix.energy, Matrix.energy, hlength, BitString.active_ofBytes]

/-! ## Validation with samples -/

/-- Equal numbers are accepted, whatever the tolerance. -/
theorem Tolerance.accepts_self {α : Type} [Sub α] [Mul α] [BEq α] [ReflBEq α] [Scalar α]
    (t : Tolerance α) (v : α) : t.accepts v v = true :=
  accepts_of_exact BEq.rfl t

variable {ε : Type}

/-- A model that has an energy on a string has as many rows as the string has bits. -/
theorem Qubo.rows_of_energy {α : Type} [Zero α] [Add α] {q : Qubo α} {bytes : List UInt8} {v : α}
    (h : q.energy bytes = .ok v) : q.matrix.rows = bytes.length := by
  rw [energy, Matrix.energy] at h
  split at h
  · cases h
  · rename_i hshape
    rw [not_or, not_not, not_not] at hshape
    exact hshape.2.symm

variable [Cause ε]

/-- Where the objective has the energies of a model on all that is tried, no difference is found,
whatever the tolerance. -/
theorem validate_of_agree {s : Settings ℚ} {f : Objective ε ℚ} {l : Layout} {q : Qubo ℚ}
    {samples : Option (List BitString)} (hrows : q.matrix.rows = l.size)
    (h : ∀ x ∈ (Validate.trials s.validation l.size samples).toList, ∃ a v,
      l.decode x.bytes = .ok a ∧ f a = .ok v ∧ q.energy x.bytes = .ok v) :
    ∃ report, (validate s f q l samples).result = .ok report ∧ report.mismatch = none := by
  let g : PseudoBoolean ε ℚ := ⟨f, l⟩
  have hvalue : ∀ x ∈ (Validate.trials s.validation l.size samples).toList,
      g.evaluate x = .ok (g.value x) ∧ q.energy x.bytes = .ok (g.value x) := by
    intro x hx
    obtain ⟨a, v, ha, hv, henergy⟩ := h x hx
    have hevaluate := PseudoBoolean.evaluate_eq_ok (g := g) ha hv
    rw [PseudoBoolean.value, hevaluate]
    exact ⟨rfl, henergy⟩
  rw [validate, (Validate.along_of_size hrows _ _).1]
  rcases Validate.walk_values (g := g) s.validation.tolerance (m := .empty) Memo.Settled.empty
    (by simp [Memo.empty]) _ (fun x hx => (hvalue x hx).1) (fun x hx => (hvalue x hx).2) 0 with
    ⟨x, -, hdiffers, -⟩ | ⟨-, hrun⟩
  · rw [Tolerance.accepts_self] at hdiffers
    cases hdiffers
  · exact ⟨_, hrun, rfl⟩

/-- A model takes the bits of any bytes from the positions that are not zero, as strings that are
made of bytes do.  Over the library's own encodings decoding takes them from the same positions
exactly if no byte is even without being zero.  On such bytes a model that has the values of an
objective on zeros and ones has them as well, and a validation that is given samples of them finds
no difference. -/
theorem bytes_read_alike {l : Layout} (hl : l.Built fun e _ => e.BuiltIn) :
    (∀ {α : Type} [Zero α] [Add α] (q : Qubo α) (bytes : List UInt8),
      q.energy (BitString.ofBytes bytes).bytes = q.energy bytes) ∧
    (∀ bytes : List UInt8, bytes.length = l.size →
      (l.decode (BitString.ofBytes bytes).bytes = l.decode bytes ↔
        ∀ b ∈ bytes, b = 0 ∨ b.toNat % 2 = 1)) ∧
    ∀ (q : Qubo ℚ) (f : Objective ε ℚ), q.Describes f l →
      (∀ bytes : List UInt8, bytes.length = l.size → (∀ b ∈ bytes, b = 0 ∨ b.toNat % 2 = 1) →
        ∃ a v, l.decode bytes = .ok a ∧ f a = .ok v ∧ q.energy bytes = .ok v) ∧
      ∀ (s : Settings ℚ) (samples : List BitString),
        (∀ x ∈ samples, x.length = l.size ∧ ∀ b ∈ x.bytes, b = 0 ∨ b.toNat % 2 = 1) →
        ∃ report, (validate s f q l (some samples)).result = .ok report ∧
          report.mismatch = none := by
  refine ⟨fun q bytes => q.energy_ofBytes bytes,
    fun bytes hbytes => Layout.decode_ofBytes_iff hl hbytes, fun q f hq => ?_⟩
  have hagree (bytes : List UInt8) (hbytes : bytes.length = l.size)
      (hb : ∀ b ∈ bytes, b = 0 ∨ b.toNat % 2 = 1) :
      ∃ a v, l.decode bytes = .ok a ∧ f a = .ok v ∧ q.energy bytes = .ok v := by
    have hbinary := BitString.binary_ofBytes bytes
    rw [hbytes] at hbinary
    obtain ⟨a, v, ha, hv, henergy⟩ := hq _ hbinary
    rw [(Layout.decode_ofBytes_iff hl hbytes).2 hb] at ha
    rw [q.energy_ofBytes] at henergy
    exact ⟨a, v, ha, hv, henergy⟩
  refine ⟨hagree, fun s samples hsamples => ?_⟩
  have hrows : q.matrix.rows = l.size := by
    obtain ⟨a, v, -, -, henergy⟩ := hq _ (BitString.binary_ofSet l.size ∅)
    exact (Qubo.rows_of_energy henergy).trans (BitString.length_ofSet l.size ∅)
  refine validate_of_agree hrows fun x hx => ?_
  rw [Validate.toList_trials, List.mem_append] at hx
  rcases hx with hprobe | hsample
  · obtain ⟨t, -, -, rfl⟩ := Probes.mem_vectors.1 hprobe
    exact hq _ (BitString.binary_ofSet l.size t)
  · rw [Validate.further, Supply.toList_ofList] at hsample
    exact hagree x.bytes (hsamples x hsample).1 (hsamples x hsample).2

/-- Bytes of three and five are read as ones by all. -/
theorem bytes_read_alike_odd :
    let l : Layout := ⟨[⟨"a", .unsigned, 2, 0⟩, ⟨"b", .offsetBinary, 1, 2⟩], 3⟩
    (l.Built fun e _ => e.BuiltIn) ∧ ([3, 0, 5] : List UInt8).length = l.size ∧
      (∀ b ∈ ([3, 0, 5] : List UInt8), b = 0 ∨ b.toNat % 2 = 1) ∧
      l.decode (BitString.ofBytes [3, 0, 5]).bytes = l.decode [3, 0, 5] := by
  intro l
  have hl : l.Built fun e _ => e.BuiltIn := by
    have h1 : Layout.empty.add "a" .unsigned 2 = .ok ⟨[⟨"a", .unsigned, 2, 0⟩], 2⟩ := rfl
    have h2 : Layout.add ⟨[⟨"a", .unsigned, 2, 0⟩], 2⟩ "b" .offsetBinary 1 = .ok l := rfl
    exact .add (.add .empty .unsigned h1) .offsetBinary h2
  have hbytes : ∀ b ∈ ([3, 0, 5] : List UInt8), b = 0 ∨ b.toNat % 2 = 1 := by simp
  exact ⟨hl, rfl, hbytes, ((bytes_read_alike (ε := CodingError) hl).2.1 _ rfl).2 hbytes⟩

/-- A byte of two is scored as one and decoded as zero: the model of a bit has its value on zero
and on one, but a validation with that byte as a sample finds a difference. -/
theorem even_byte_read_apart :
    let l : Layout := ⟨[⟨"a", .unsigned, 1, 0⟩], 1⟩
    let f : Objective CodingError ℚ := fun a => (a.int "a").map fun v => (v.toInt : ℚ)
    let q : Qubo ℚ := ⟨⟨1, 1, #[1], rfl⟩, 0⟩
    (l.Built fun e _ => e.BuiltIn) ∧ q.Describes f l ∧
      l.decode [2] = .ok ⟨[("a", .int 0)]⟩ ∧
      l.decode (BitString.ofBytes [2]).bytes = .ok ⟨[("a", .int 1)]⟩ ∧
      q.energy [2] = .ok 1 ∧ isQuadratic (.standard 4) f q l (some [⟨[2]⟩]) = .ok false := by
  intro l f q
  have hl : l.Built fun e _ => e.BuiltIn := by
    have h : Layout.empty.add "a" .unsigned 1 = .ok l := rfl
    exact .add .empty .unsigned h
  have hq : q.Describes f l := by
    rintro ⟨bytes⟩ hx
    obtain ⟨b, rfl⟩ := List.length_eq_one_iff.1 hx.length_eq
    rcases hx.bit b (by simp) with rfl | rfl
    · exact ⟨_, _, rfl, rfl, by decide +kernel⟩
    · exact ⟨_, _, rfl, rfl, by decide +kernel⟩
  have hreport : (isQuadratic (.standard 4) f q l (some [⟨[2]⟩])).toOption = some false := by
    decide +kernel
  refine ⟨hl, hq, by decide, by decide, by decide +kernel, ?_⟩
  cases h : isQuadratic (.standard 4) f q l (some [⟨[2]⟩]) with
  | error e =>
    rw [h] at hreport
    cases hreport
  | ok b =>
    rw [h] at hreport
    exact congrArg Except.ok (Option.some.inj hreport)

end QuboProbe
