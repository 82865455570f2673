/-
  QuboProbe.Proofs.Compile.QuadraticPart

  What the compiled model is, for any objective, when the arithmetic is exact:
  the part of the objective that is of degree two in the bits.  Its energy adds
  up the coefficients of the sets of at most two set positions
  (`compile_quadraticPart`), so it agrees with the objective on strings of at
  most two ones, and on all strings exactly if the objective is quadratic.
-/
import QuboProbe.Encoding.Unsigned
import QuboProbe.Exact
import QuboProbe.Proofs.Compile.Outcome
import QuboProbe.Proofs.Energy
import QuboProbe.Proofs.Layout.Codec
import QuboProbe.Proofs.Moebius

namespace QuboProbe

/-- A square table of zeros below the diagonal. -/
structure Matrix.UpperTriangular {α : Type} [Zero α] (q : Matrix α) (n : Nat) : Prop where
  rows : q.rows = n
  cols : q.cols = n
  below : ∀ i j, j < i → q.entry i j = 0

namespace PseudoBoolean

/-! ## The model of values -/

section

variable {α : Type} [Zero α] [Add α] [Sub α]

/-- The coefficients of the places stand on and above the diagonal. -/
theorem entry_modelOf (value : BitString → α) (n i j : Nat) :
    (modelOf value n).matrix.entry i j =
      if i ≤ j ∧ j < n then coefficientOf value n (i, j) else 0 := by
  by_cases hij : i ≤ j ∧ j < n
  · rw [if_pos hij, Matrix.entry, get?_modelOf value hij.1 hij.2, Option.getD_some]
  · rw [if_neg hij, Matrix.entry, modelOf, get?_assemble _ _ fun p => Probes.lt_of_mem_cells,
      if_neg fun hmem => hij (Probes.mem_cells.1 hmem)]
    split <;> rfl

theorem upperTriangular_modelOf (value : BitString → α) (n : Nat) :
    (modelOf value n).matrix.UpperTriangular n where
  rows := (assemble_shape n _ _).1
  cols := (assemble_shape n _ _).2
  below i j hji := by rw [entry_modelOf, if_neg (by omega)]

end

/-- The coefficient of one position or of two is that of the set. -/
theorem coefficientOf_eq_moebius (value : BitString → ℚ) (n : Nat) {i j : Nat} (hij : i ≤ j) :
    coefficientOf value n (i, j) = moebius (fun t => value (.ofSet n t)) {i, j} := by
  rcases Nat.eq_or_lt_of_le hij with rfl | hlt
  · rw [coefficientOf, if_pos rfl, Finset.pair_eq_singleton, ← insert_empty_eq i,
      moebius_insert _ (Finset.notMem_empty i)]
    simp [moebius, BitString.unit_eq_ofSet, BitString.zeros_eq_ofSet]
  · have hne := Nat.ne_of_lt hlt
    rw [coefficientOf, if_neg hne, moebius_insert _ (by simpa using hne), ← insert_empty_eq j,
      moebius_insert _ (Finset.notMem_empty j)]
    simp only [moebius, BitString.unit_eq_ofSet, BitString.zeros_eq_ofSet,
      BitString.pair_eq_ofSet, insert_empty_eq, Finset.powerset_empty, Finset.sum_singleton,
      Finset.card_empty, Nat.sub_self, pow_zero, one_mul]
    ring

theorem holds_modelOf (value : BitString → ℚ) {n : Nat} {s : Finset Nat}
    (hs : s ⊆ Finset.range n) :
    (modelOf value n).matrix.Holds (moebius fun t => value (.ofSet n t)) s where
  diagonal i hi := by
    have hi' := Finset.mem_range.1 (hs hi)
    rw [entry_modelOf, if_pos ⟨Nat.le_refl i, hi'⟩,
      coefficientOf_eq_moebius value n (Nat.le_refl i), Finset.pair_eq_singleton]
  above i hi j hj hij := by
    have hj' := Finset.mem_range.1 (hs hj)
    rw [entry_modelOf, if_pos ⟨Nat.le_of_lt hij, hj'⟩,
      coefficientOf_eq_moebius value n (Nat.le_of_lt hij)]

/-- The energy adds up the coefficients of the sets of at most two set positions. -/
theorem energy_modelOf (value : BitString → ℚ) {n : Nat} {x : BitString} (hx : x.Binary n) :
    (modelOf value n).energy x.bytes = .ok (low 2 (fun t => value (.ofSet n t)) x.support) := by
  have hoffset : (modelOf value n).offset = moebius (fun t => value (.ofSet n t)) ∅ := by
    simp [modelOf, assemble, moebius, BitString.zeros_eq_ofSet]
  have hshape := upperTriangular_modelOf value n
  rw [Qubo.energy, hoffset, Matrix.energy_eq (hshape.rows.trans hx.length_eq.symm)
    (hshape.cols.trans hx.length_eq.symm) (holds_modelOf value hx.support_subset), low]

/-- On strings of at most two ones the energy is the value. -/
theorem energy_modelOf_of_ones (value : BitString → ℚ) {n : Nat} {x : BitString}
    (hx : x.Binary n) (hones : x.ones ≤ 2) :
    (modelOf value n).energy x.bytes = .ok (value x) := by
  rw [hx.ones_eq_card] at hones
  rw [energy_modelOf value hx, low_eq_of_card_le hones, hx.ofSet_support]

/-- The energy is the value everywhere exactly if no larger set has a coefficient. -/
theorem energy_modelOf_eq_iff (value : BitString → ℚ) (n : Nat) :
    (∀ x : BitString, x.Binary n → (modelOf value n).energy x.bytes = .ok (value x)) ↔
      ∀ t ⊆ Finset.range n, 2 < t.card → moebius (fun t => value (.ofSet n t)) t = 0 := by
  rw [← low_eq_iff]
  constructor
  · intro h t ht
    have hx := BitString.binary_ofSet n t
    have henergy := (energy_modelOf value hx).symm.trans (h _ hx)
    rw [BitString.support_ofSet_of_subset ht] at henergy
    exact Except.ok.inj henergy
  · intro h x hx
    rw [energy_modelOf value hx, h x.support hx.support_subset, hx.ofSet_support]

/-! ## The model of an objective -/

variable {ε : Type}

/-- Rational values are finite, so the function has the value of the objective. -/
theorem evaluate_eq_ok {g : PseudoBoolean ε ℚ} {x : BitString} {a : Valuation} {v : ℚ}
    (ha : g.layout.decode x.bytes = .ok a) (hv : g.objective a = .ok v) :
    g.evaluate x = .ok v := by
  simp only [evaluate, ha, hv]
  rfl

/-- A model reads its values on the probes alone. -/
theorem modelOf_congr {α : Type} [Zero α] [Add α] [Sub α] {value value' : BitString → α} {n : Nat}
    (h : ∀ t, value (.ofSet n t) = value' (.ofSet n t)) : modelOf value n = modelOf value' n := by
  have hcoefficient (p : Place) : coefficientOf value n p = coefficientOf value' n p := by
    simp only [coefficientOf, BitString.zeros_eq_ofSet, BitString.unit_eq_ofSet,
      BitString.pair_eq_ofSet, h]
  simp only [modelOf, BitString.zeros_eq_ofSet, h, hcoefficient]

end PseudoBoolean

variable {ε : Type} [Cause ε]

/-- An objective with a value on every string is compiled, whatever the settings, into the model of
its values. -/
theorem compile_of_values {f : Objective ε ℚ} {l : Layout} {g : BitString → ℚ}
    (hg : ∀ x : BitString, x.Binary l.size → ∃ a, l.decode x.bytes = .ok a ∧ f a = .ok (g x))
    (s : Settings ℚ) :
    (compile s f l).result = .ok ⟨PseudoBoolean.modelOf g l.size, Probes.tally l.size⟩ := by
  have hvalue (x : BitString) (hx : x.Binary l.size) :
      PseudoBoolean.evaluate ⟨f, l⟩ x = .ok (g x) := by
    obtain ⟨a, ha, hv⟩ := hg x hx
    exact PseudoBoolean.evaluate_eq_ok ha hv
  have hok : ∀ x ∈ Probes.vectors l.size, ¬ PseudoBoolean.FailsOn ⟨f, l⟩ x := fun x hx => by
    obtain ⟨t, -, -, rfl⟩ := Probes.mem_vectors.1 hx
    exact (PseudoBoolean.exists_value_iff (g := ⟨f, l⟩) (BitString.length_ofSet _ t)).1
      ⟨_, hvalue _ (BitString.binary_ofSet _ t)⟩
  have hmodel : PseudoBoolean.modelOf (PseudoBoolean.value ⟨f, l⟩) l.size =
      PseudoBoolean.modelOf g l.size :=
    PseudoBoolean.modelOf_congr fun t => by
      rw [PseudoBoolean.value, hvalue _ (BitString.binary_ofSet _ t)]
  rw [← hmodel]
  exact PseudoBoolean.compileWith_value (g := ⟨f, l⟩) hok s

/-- Compilation of an objective that has a value on every string of `n` bits gives the part of it
that is of degree two in the bits: the energy adds up the coefficients of the sets of at most two
set positions.  It agrees with the objective on strings of at most two ones, and on all strings
exactly if all other coefficients vanish, which means that the objective is a polynomial of degree
at most two in the bits. -/
theorem compile_quadraticPart (s : Settings ℚ) (f : Objective ε ℚ) (l : Layout)
    (g : BitString → ℚ)
    (hg : ∀ x : BitString, x.Binary l.size → ∃ a, l.decode x.bytes = .ok a ∧ f a = .ok (g x)) :
    let m := moebius fun t => g (.ofSet l.size t)
    ∃ c, (compile s f l).result = .ok c ∧ c.qubo.matrix.UpperTriangular l.size ∧
      (∀ x : BitString, x.Binary l.size →
        c.qubo.energy x.bytes = .ok (∑ t ∈ x.support.powerset with t.card ≤ 2, m t)) ∧
      (∀ x : BitString, x.Binary l.size → x.ones ≤ 2 → c.qubo.energy x.bytes = .ok (g x)) ∧
      ((∀ x : BitString, x.Binary l.size → c.qubo.energy x.bytes = .ok (g x)) ↔
        ∀ t ⊆ Finset.range l.size, 3 ≤ t.card → m t = 0) ∧
      ((∀ t ⊆ Finset.range l.size, 3 ≤ t.card → m t = 0) ↔ Multilinear 2 l.size g) := by
  intro m
  refine ⟨_, compile_of_values hg s, PseudoBoolean.upperTriangular_modelOf g l.size, ?_, ?_,
    PseudoBoolean.energy_modelOf_eq_iff g l.size, moebius_eq_zero_iff_multilinear⟩
  · intro x hx
    exact PseudoBoolean.energy_modelOf g hx
  · intro x hx hones
    exact PseudoBoolean.energy_modelOf_of_ones g hx hones

/-- The cube of a number of three bits: its model agrees with it on strings of at most two ones. -/
theorem compile_quadraticPart_cube :
    let l : Layout := ⟨[⟨"x", .unsigned, 3, 0⟩], 3⟩
    let f : Objective CodingError ℚ := fun a => (a.int "x").map fun v => (v.toInt : ℚ) ^ 3
    let g : BitString → ℚ := fun x => ((Int64.ofInt (Field.toNat x.bytes)).toInt : ℚ) ^ 3
    (∀ x : BitString, x.Binary l.size → ∃ a, l.decode x.bytes = .ok a ∧ f a = .ok (g x)) ∧
      ∃ c, (compile (.standard 4) f l).result = .ok c ∧
        ∀ x : BitString, x.Binary l.size → x.ones ≤ 2 → c.qubo.energy x.bytes = .ok (g x) := by
  intro l f g
  have hg (x : BitString) (hx : x.Binary l.size) :
      ∃ a, l.decode x.bytes = .ok a ∧ f a = .ok (g x) :=
    ⟨_, Layout.decode_single hx.length_eq, rfl⟩
  obtain ⟨c, hc, -, -, hsmall, -⟩ := compile_quadraticPart (.standard 4) f l g hg
  exact ⟨hg, c, hc, hsmall⟩

end QuboProbe
