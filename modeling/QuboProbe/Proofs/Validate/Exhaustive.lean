/-
  QuboProbe.Proofs.Validate.Exhaustive

  Validation by trying every bit string decides whether a model is right, when
  the arithmetic is exact and nothing but the same number is accepted
  (`validate_exhaustive`).  The probes come first and are met again among all
  bit strings, but each string is compared once, so a validation that finds no
  difference has compared `2 ^ n` of them.
-/
import QuboProbe.Proofs.Compile.QuadraticPart
import QuboProbe.Proofs.Encoding.Index
import QuboProbe.Proofs.Layout.Codec
import QuboProbe.Proofs.Validate.Walk

namespace QuboProbe

/-! ## Every bit string -/

namespace Validate

theorem toList_everyString (n : Nat) :
    (everyString n).toList = (List.range' 0 (2 ^ n)).map (BitString.ofIndex n) :=
  Supply.toList_tabulate ..

theorem mem_everyString {n : Nat} {x : BitString} :
    x ∈ (everyString n).toList ↔ x.Binary n := by
  rw [toList_everyString, List.mem_map]
  constructor
  · rintro ⟨index, -, rfl⟩
    exact BitString.binary_ofIndex n index
  · intro hx
    obtain ⟨index, hindex, hstring⟩ := (BitString.bijOn_ofIndex n).surjOn hx
    exact ⟨index, List.mem_range'_1.2 ⟨Nat.zero_le index, by simpa using hindex⟩, hstring⟩

theorem length_everyString (n : Nat) : (everyString n).toList.length = 2 ^ n := by
  rw [toList_everyString, List.length_map, List.length_range']

theorem everyString_ne_nil (n : Nat) : (everyString n).toList ≠ [] := by
  apply List.ne_nil_of_length_pos
  rw [length_everyString]
  exact Nat.two_pow_pos n

theorem nodup_everyString (n : Nat) : (everyString n).toList.Nodup := by
  rw [toList_everyString]
  apply (List.nodup_range' 1).map_on
  intro i hi j hj h
  have hi' : i < 2 ^ n := by simpa using (List.mem_range'_1.1 hi).2
  have hj' : j < 2 ^ n := by simpa using (List.mem_range'_1.1 hj).2
  exact (BitString.bijOn_ofIndex n).injOn hi' hj' h

/-- Below the limit, what is tried is every string of zeros and ones, the probes among them. -/
theorem mem_trials {α : Type} {effort : Effort α} {n : Nat} {x : BitString}
    (hlimit : n ≤ effort.exhaustiveLimit) (hsize : n < 64) :
    x ∈ (trials effort n none).toList ↔ x.Binary n := by
  have hexhaustive : isExhaustive effort n = true := by simp [isExhaustive, hlimit, hsize]
  rw [toList_trials, List.mem_append, further, if_pos hexhaustive, mem_everyString]
  refine ⟨fun h => h.elim (fun hx => ?_) id, .inr⟩
  obtain ⟨t, -, -, rfl⟩ := Probes.mem_vectors.1 hx
  exact BitString.binary_ofSet n t

end Validate

/-! ## Deciding -/

variable {ε : Type}

/-- The objective and the model have values on the string, the two that are reported, and these
differ. -/
structure Mismatch.Genuine (d : Mismatch ℚ) (f : Objective ε ℚ) (q : Qubo ℚ) (l : Layout) :
    Prop where
  binary : d.bits.Binary l.size
  expected : ∃ a, l.decode d.bits.bytes = .ok a ∧ f a = .ok d.expected
  actual : q.energy d.bits.bytes = .ok d.actual
  differ : d.expected ≠ d.actual

variable {s : Settings ℚ} {f : Objective ε ℚ} {l : Layout} {g : BitString → ℚ}

theorem Mismatch.Genuine.expected_eq {d : Mismatch ℚ} {q : Qubo ℚ} (hd : d.Genuine f q l)
    (hg : ∀ x : BitString, x.Binary l.size → ∃ a, l.decode x.bytes = .ok a ∧ f a = .ok (g x)) :
    d.expected = g d.bits := by
  obtain ⟨a, ha, hv⟩ := hd.expected
  obtain ⟨b, hb, hv'⟩ := hg d.bits hd.binary
  obtain rfl : a = b := Except.ok.inj (ha.symm.trans hb)
  exact Except.ok.inj (hv.symm.trans hv')

variable [Cause ε]

/-- A report of an exhaustive validation: either it shows a difference, or there is none and every
string was compared once. -/
theorem validate_cases
    (hg : ∀ x : BitString, x.Binary l.size → ∃ a, l.decode x.bytes = .ok a ∧ f a = .ok (g x))
    (hlimit : l.size ≤ s.validation.exhaustiveLimit) (hsize : l.size < 64)
    (htolerance : s.validation.tolerance = .exact) {q : Qubo ℚ} (hrows : q.matrix.rows = l.size)
    (hcols : q.matrix.cols = l.size) :
    (∃ k d, (validate s f q l none).result = .ok ⟨k, some d⟩ ∧ d.Genuine f q l) ∨
      ((validate s f q l none).result = .ok ⟨2 ^ l.size, none⟩ ∧
        ∀ x : BitString, x.Binary l.size → q.energy x.bytes = .ok (g x)) := by
  have hvalue (x : BitString) (hx : x.Binary l.size) :
      PseudoBoolean.evaluate ⟨f, l⟩ x = .ok (g x) := by
    obtain ⟨a, ha, hv⟩ := hg x hx
    exact PseudoBoolean.evaluate_eq_ok ha hv
  have henergy (x : BitString) (hx : x.Binary l.size) :=
    Qubo.energy_eq_ok (q := q) (hrows.trans hx.length_eq.symm) (hcols.trans hx.length_eq.symm)
  have htried (x : BitString) := Validate.mem_trials (x := x) hlimit hsize
  rw [validate, (Validate.along_of_size hrows _ _).1, htolerance]
  have hwalk := Validate.walk_values .exact (m := .empty) Memo.Settled.empty
    (by simp [Memo.empty]) _ (fun x hx => hvalue x ((htried x).1 hx))
    (fun x hx => henergy x ((htried x).1 hx)) 0
  rcases hwalk with
    ⟨x, hx, hdiffers, k, hrun⟩ | ⟨hall, hrun⟩
  · have hbinary := (htried x).1 hx
    exact .inl ⟨k, _, hrun, hbinary, hg x hbinary, henergy x hbinary,
      by simpa [Tolerance.accepts] using hdiffers⟩
  · right
    refine ⟨?_, fun x hx => ?_⟩
    · -- nothing was evaluated before, and what was tried is every string
      have hfresh : Validate.fresh (Memo.empty : Memo ℚ)
          (Validate.trials s.validation l.size none).toList =
          (Validate.everyString l.size).toList.toFinset := by
        ext x
        simp only [Validate.fresh, Finset.mem_sdiff, List.mem_toFinset, htried,
          Validate.mem_everyString]
        simp [Memo.empty]
      rw [hrun, hfresh, List.toFinset_card_of_nodup (Validate.nodup_everyString _),
        Validate.length_everyString, Nat.zero_add]
    · have haccepted := hall x ((htried x).2 hx) (by simp [Memo.empty])
      have hsame : g x = q.matrix.addActive q.offset (BitString.active x.bytes) := by
        simpa [Tolerance.accepts] using haccepted
      rw [henergy x hx, hsame]

/-- What the report of an exhaustive validation says about the model. -/
theorem validate_decides
    (hg : ∀ x : BitString, x.Binary l.size → ∃ a, l.decode x.bytes = .ok a ∧ f a = .ok (g x))
    (hlimit : l.size ≤ s.validation.exhaustiveLimit) (hsize : l.size < 64)
    (htolerance : s.validation.tolerance = .exact) {q : Qubo ℚ} (hrows : q.matrix.rows = l.size)
    (hcols : q.matrix.cols = l.size) :
    ∃ report, (validate s f q l none).result = .ok report ∧
      isQuadratic s f q l none = .ok report.isQuadratic ∧
      (report.isQuadratic = true ↔
        ∀ x : BitString, x.Binary l.size → q.energy x.bytes = .ok (g x)) ∧
      (report.isQuadratic = true → report.checked = 2 ^ l.size) ∧
      (report.isQuadratic = false → ∃ d, report.mismatch = some d ∧ d.Genuine f q l) := by
  rcases validate_cases hg hlimit hsize htolerance hrows hcols with
    ⟨k, d, hreport, hgenuine⟩ | ⟨hreport, hall⟩
  · refine ⟨_, hreport, by rw [isQuadratic, hreport]; rfl, ?_, nofun, fun _ => ⟨d, rfl, hgenuine⟩⟩
    -- the difference that is reported is one
    refine ⟨nofun, fun h => absurd ?_ hgenuine.differ⟩
    exact (hgenuine.expected_eq hg).trans
      (Except.ok.inj ((h d.bits hgenuine.binary).symm.trans hgenuine.actual))
  · exact ⟨_, hreport, by rw [isQuadratic, hreport]; rfl, ⟨fun _ => hall, fun _ => rfl⟩,
      fun _ => rfl, nofun⟩

/-- A validation that tries every string decides whether a model of the right size is right: it
finds no difference exactly if the energy is the value of the objective on every string, and then
it has compared each of them once.  For a compiled model this decides whether the objective is a
polynomial of degree at most two in the bits, and a difference shows on three ones or more. -/
theorem validate_exhaustive (s : Settings ℚ) (f : Objective ε ℚ) (l : Layout)
    (g : BitString → ℚ)
    (hg : ∀ x : BitString, x.Binary l.size → ∃ a, l.decode x.bytes = .ok a ∧ f a = .ok (g x))
    (hlimit : l.size ≤ s.validation.exhaustiveLimit) (hsize : l.size < 64)
    (htolerance : s.validation.tolerance = .exact) :
    (∀ q : Qubo ℚ, q.matrix.rows = l.size → q.matrix.cols = l.size →
      ∃ report, (validate s f q l none).result = .ok report ∧
        isQuadratic s f q l none = .ok report.isQuadratic ∧
        (report.isQuadratic = true ↔
          ∀ x : BitString, x.Binary l.size → q.energy x.bytes = .ok (g x)) ∧
        (report.isQuadratic = true → report.checked = 2 ^ l.size) ∧
        (report.isQuadratic = false → ∃ d, report.mismatch = some d ∧ d.Genuine f q l)) ∧
    ∀ s' : Settings ℚ, ∃ c report, (compile s' f l).result = .ok c ∧
      (validate s f c.qubo l none).result = .ok report ∧
      isQuadratic s f c.qubo l none = .ok report.isQuadratic ∧
      (report.isQuadratic = true ↔ Multilinear 2 l.size g) ∧
      (report.isQuadratic = true → report.checked = 2 ^ l.size) ∧
      (report.isQuadratic = false → ∃ d, report.mismatch = some d ∧ d.Genuine f c.qubo l ∧
        3 ≤ d.bits.ones) := by
  have hdecides (q : Qubo ℚ) (hrows : q.matrix.rows = l.size) (hcols : q.matrix.cols = l.size) :=
    validate_decides hg hlimit hsize htolerance hrows hcols
  refine ⟨hdecides, fun s' => ?_⟩
  have hshape := PseudoBoolean.upperTriangular_modelOf g l.size
  obtain ⟨report, hreport, hbool, hiff, hchecked, hdiffers⟩ :=
    hdecides (PseudoBoolean.modelOf g l.size) hshape.rows hshape.cols
  refine ⟨_, report, compile_of_values hg s', hreport, hbool, ?_, hchecked, fun h => ?_⟩
  · rw [hiff, PseudoBoolean.energy_modelOf_eq_iff]
    exact moebius_eq_zero_iff_multilinear
  · obtain ⟨d, hd, hgenuine⟩ := hdiffers h
    refine ⟨d, hd, hgenuine, ?_⟩
    -- on fewer ones the compiled model is right
    by_contra hfew
    have henergy := PseudoBoolean.energy_modelOf_of_ones g hgenuine.binary (by omega)
    exact hgenuine.differ ((hgenuine.expected_eq hg).trans
      (Except.ok.inj (henergy.symm.trans hgenuine.actual)))

/-- Whether the model of the cube of a number of three bits is right. -/
theorem validate_exhaustive_cube :
    let l : Layout := ⟨[⟨"x", .unsigned, 3, 0⟩], 3⟩
    let f : Objective CodingError ℚ := fun a => (a.int "x").map fun v => (v.toInt : ℚ) ^ 3
    let g : BitString → ℚ := fun x => ((Int64.ofInt (Field.toNat x.bytes)).toInt : ℚ) ^ 3
    let s : Settings ℚ := ⟨true, 4, ⟨1000, 0, 12, .exact⟩⟩
    (∀ x : BitString, x.Binary l.size → ∃ a, l.decode x.bytes = .ok a ∧ f a = .ok (g x)) ∧
      l.size ≤ s.validation.exhaustiveLimit ∧ l.size < 64 ∧
      ∃ c report, (compile s f l).result = .ok c ∧
        (validate s f c.qubo l none).result = .ok report ∧
        (report.isQuadratic = true ↔ Multilinear 2 l.size g) := by
  intro l f g s
  have hg (x : BitString) (hx : x.Binary l.size) :
      ∃ a, l.decode x.bytes = .ok a ∧ f a = .ok (g x) :=
    ⟨_, Layout.decode_single hx.length_eq, rfl⟩
  have hlimit : l.size ≤ s.validation.exhaustiveLimit := by decide
  have hsize : l.size < 64 := by decide
  obtain ⟨c, report, hc, hreport, -, hiff, -⟩ :=
    (validate_exhaustive s f l g hg hlimit hsize rfl).2 s
  exact ⟨hg, hlimit, hsize, c, report, hc, hreport, hiff⟩

end QuboProbe
