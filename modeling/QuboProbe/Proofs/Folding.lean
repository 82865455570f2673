/-
  QuboProbe.Proofs.Folding

  Three tables of one quadratic form.  A square table stands for the sum over
  all ordered pairs of set positions, on either side of the diagonal
  (`Matrix.form`).  Folding it (`Qubo.folded`) moves what is below the diagonal
  above it; `Qubo.toSymmetric` spreads a model evenly over both sides again.
-/
import QuboProbe.Proofs.Compile.QuadraticPart
import QuboProbe.Proofs.Filling
import QuboProbe.Proofs.QuadraticForm

namespace QuboProbe

/-! ## The form of a table -/

/-- A bit is its own square. -/
theorem BitString.point_mul_self (x : BitString) (i : Nat) : x.point i * x.point i = x.point i := by
  rw [point, setPoint, mul_ite, mul_one, mul_zero]
  split <;> rfl

namespace Matrix

/-- The sum of the entries of a table at all pairs of set positions, in either order. -/
def form (m : Matrix ℚ) (x : BitString) : ℚ :=
  ∑ i ∈ Finset.range m.rows, ∑ j ∈ Finset.range m.cols, m.entry i j * x.point i * x.point j

/-- A sum over a square, the two halves beside the diagonal laid on each other. -/
theorem sum_square (n : Nat) (f : Nat → Nat → ℚ) :
    ∑ i ∈ Finset.range n, ∑ j ∈ Finset.range n, f i j =
      ∑ i ∈ Finset.range n, f i i +
        ∑ i ∈ Finset.range n, ∑ j ∈ Finset.range n with i < j, (f i j + f j i) := by
  have hsplit (i j : Nat) : f i j =
      (if i = j then f i j else 0) + ((if i < j then f i j else 0) + if j < i then f i j else 0) := by
    rcases Nat.lt_trichotomy i j with hij | rfl | hij
    · rw [if_neg (by omega), if_pos hij, if_neg (by omega), zero_add, add_zero]
    · rw [if_pos rfl, if_neg (Nat.lt_irrefl i), add_zero, add_zero]
    · rw [if_neg (by omega), if_neg (by omega), if_pos hij, zero_add, zero_add]
  have hdiagonal : ∑ i ∈ Finset.range n, ∑ j ∈ Finset.range n, (if i = j then f i j else 0) =
      ∑ i ∈ Finset.range n, f i i := by
    apply Finset.sum_congr rfl
    intro i hi
    rw [Finset.sum_ite_eq, if_pos hi]
  -- what is below the diagonal, column by column
  have hbelow : ∑ i ∈ Finset.range n, ∑ j ∈ Finset.range n, (if j < i then f i j else 0) =
      ∑ i ∈ Finset.range n, ∑ j ∈ Finset.range n, if i < j then f j i else 0 :=
    Finset.sum_comm
  calc ∑ i ∈ Finset.range n, ∑ j ∈ Finset.range n, f i j
      = ∑ i ∈ Finset.range n, ∑ j ∈ Finset.range n, ((if i = j then f i j else 0) +
          ((if i < j then f i j else 0) + if j < i then f i j else 0)) :=
        Finset.sum_congr rfl fun i _ => Finset.sum_congr rfl fun j _ => hsplit i j
    _ = ∑ i ∈ Finset.range n, f i i +
          (∑ i ∈ Finset.range n, ∑ j ∈ Finset.range n, (if i < j then f i j else 0) +
            ∑ i ∈ Finset.range n, ∑ j ∈ Finset.range n, if i < j then f j i else 0) := by
        simp only [Finset.sum_add_distrib, hdiagonal, hbelow]
    _ = _ := by simp only [Finset.sum_filter, Finset.sum_add_distrib]

theorem form_eq {m : Matrix ℚ} (hsquare : m.rows = m.cols) (x : BitString) :
    m.form x = ∑ i ∈ Finset.range m.rows, m.entry i i * x.point i +
      ∑ i ∈ Finset.range m.rows, ∑ j ∈ Finset.range m.rows with i < j,
        (m.entry i j + m.entry j i) * x.point i * x.point j := by
  rw [form, ← hsquare, sum_square]
  congr 1
  · apply Finset.sum_congr rfl
    intro i _
    rw [mul_assoc, x.point_mul_self]
  · apply Finset.sum_congr rfl
    intro i _
    apply Finset.sum_congr rfl
    intro j _
    ring

end Matrix

namespace Qubo

/-! ## Folding -/

section

variable {α : Type}

theorem ofMatrix_eq_error_iff [Zero α] [Add α] {m : Matrix α} {c : α} {e : DimensionError} :
    ofMatrix m c = .error e ↔ m.rows ≠ m.cols ∧ e = ⟨m.rows, m.cols, m.rows⟩ := by
  rw [ofMatrix]
  exact refused_iff

theorem ofMatrix_eq_ok [Zero α] [Add α] {m : Matrix α} (hsquare : m.rows = m.cols) (c : α) :
    ofMatrix m c = .ok ⟨folded m, c⟩ := by
  rw [ofMatrix, if_neg (not_not_intro hsquare)]

theorem entry_folded [Zero α] [Add α] {m : Matrix α} {i j : Nat} (hi : i < m.rows)
    (hj : j < m.rows) :
    (folded m).entry i j =
      if i = j then 0 + m.entry i i else if i < j then 0 + m.entry i j + m.entry j i else 0 := by
  rw [folded, Matrix.entry_ofFn, if_pos ⟨hi, hj⟩]

theorem upperTriangular_folded [Zero α] [Add α] (m : Matrix α) :
    (folded m).UpperTriangular m.rows where
  rows := rfl
  cols := rfl
  below i j hji := by
    rw [folded, Matrix.entry_ofFn, if_neg (by omega : ¬i = j), if_neg (by omega : ¬i < j), ite_self]

/-- There is nothing to fold in an upper triangular table. -/
theorem folded_eq_self [AddZeroClass α] {m : Matrix α} {n : Nat} (hm : m.UpperTriangular n) :
    folded m = m := by
  have hsquare : m.rows = m.cols := hm.rows.trans hm.cols.symm
  have hshape := upperTriangular_folded m
  apply Matrix.ext_entry hshape.rows (hshape.cols.trans hsquare)
  intro i j hi hj
  rw [hshape.rows] at hi
  rw [hshape.cols] at hj
  rw [entry_folded hi hj]
  rcases Nat.lt_trichotomy i j with hij | rfl | hij
  · rw [if_neg (by omega), if_pos hij, hm.below j i hij, zero_add, add_zero]
  · rw [if_pos rfl, zero_add]
  · rw [if_neg (by omega), if_neg (by omega), hm.below i j hij]

end

/-- Folding keeps the form. -/
theorem energy_folded {m : Matrix ℚ} (hsquare : m.rows = m.cols) (c : ℚ) {x : BitString}
    (hx : x.length = m.rows) :
    (⟨folded m, c⟩ : Qubo ℚ).energy x.bytes = .ok (c + m.form x) := by
  have hlinear : ∑ i ∈ Finset.range m.rows, (folded m).entry i i * x.point i =
      ∑ i ∈ Finset.range m.rows, m.entry i i * x.point i := by
    apply Finset.sum_congr rfl
    intro i hi
    have hi := Finset.mem_range.1 hi
    rw [entry_folded hi hi, if_pos rfl, zero_add]
  have hpairs : ∑ i ∈ Finset.range m.rows, ∑ j ∈ Finset.range m.rows with i < j,
        (folded m).entry i j * x.point i * x.point j =
      ∑ i ∈ Finset.range m.rows, ∑ j ∈ Finset.range m.rows with i < j,
        (m.entry i j + m.entry j i) * x.point i * x.point j := by
    apply Finset.sum_congr rfl
    intro i hi
    apply Finset.sum_congr rfl
    intro j hj
    obtain ⟨hj, hij⟩ := Finset.mem_filter.1 hj
    rw [entry_folded (Finset.mem_range.1 hi) (Finset.mem_range.1 hj), if_neg (Nat.ne_of_lt hij),
      if_pos hij, zero_add]
  have hshape := upperTriangular_folded m
  rw [energy, Matrix.energy_eq_sum (hshape.rows.trans hshape.cols.symm) hx, hshape.rows,
    hlinear, hpairs, m.form_eq hsquare, add_assoc]

/-! ## The symmetric table -/

theorem entry_toSymmetric (q : Qubo ℚ) {i j : Nat} (hi : i < q.size) (hj : j < q.size) :
    q.toSymmetric.entry i j =
      if i = j then q.matrix.entry i i else q.matrix.entry (min i j) (max i j) / 2 := by
  rw [toSymmetric, Matrix.entry_ofFn, if_pos ⟨hi, hj⟩]
  rfl

theorem toSymmetric_comm (q : Qubo ℚ) (i j : Nat) :
    q.toSymmetric.entry i j = q.toSymmetric.entry j i := by
  by_cases h : i < q.size ∧ j < q.size
  · rw [q.entry_toSymmetric h.1 h.2, q.entry_toSymmetric h.2 h.1, min_comm, max_comm]
    by_cases hij : i = j
    · rw [hij]
    · rw [if_neg hij, if_neg (Ne.symm hij)]
  · rw [toSymmetric, Matrix.entry_ofFn, Matrix.entry_ofFn, if_neg h, if_neg fun h' => h h'.symm]

/-- A square model has its symmetric table, if the table can be held. -/
theorem toSymmetric?_eq {α : Type} [Zero α] [Scalar α] {q : Qubo α}
    (hsquare : q.matrix.rows = q.matrix.cols) :
    q.toSymmetric? = if Matrix.fits q.size q.size then some q.toSymmetric else none := by
  have hbelow : ¬(0 < q.matrix.rows ∧ q.matrix.rows < q.matrix.cols) := by omega
  rw [toSymmetric?, if_neg hbelow]

/-- The two entries that face each other add up to the coefficient. -/
theorem toSymmetric_add (q : Qubo ℚ) {i j : Nat} (hij : i < j) (hj : j < q.size) :
    q.toSymmetric.entry i j + q.toSymmetric.entry j i = q.matrix.entry i j := by
  rw [q.toSymmetric_comm j i, q.entry_toSymmetric (hij.trans hj) hj, if_neg (Nat.ne_of_lt hij),
    min_eq_left hij.le, max_eq_right hij.le, add_halves]

/-- The folded symmetric table has the upper triangle of the model. -/
theorem entry_folded_toSymmetric {q : Qubo ℚ} (hsquare : q.matrix.rows = q.matrix.cols) {i j : Nat}
    (hij : i ≤ j) : (folded q.toSymmetric).entry i j = q.matrix.entry i j := by
  have hrows : q.toSymmetric.rows = q.size := rfl
  by_cases hj : j < q.size
  · have hi : i < q.size := Nat.lt_of_le_of_lt hij hj
    rw [entry_folded (hrows ▸ hi) (hrows ▸ hj), zero_add, zero_add]
    rcases Nat.eq_or_lt_of_le hij with rfl | hlt
    · rw [if_pos rfl, q.entry_toSymmetric hi hi, if_pos rfl]
    · rw [if_neg (Nat.ne_of_lt hlt), if_pos hlt, q.toSymmetric_add hlt hj]
  · have hout : ¬(i < q.matrix.rows ∧ j < q.matrix.cols) := fun h => hj (hsquare.symm ▸ h.2 : j < q.matrix.rows)
    rw [folded, Matrix.entry_ofFn, hrows, if_neg fun h => hj h.2, Matrix.entry_eq_zero hout]

theorem folded_toSymmetric {q : Qubo ℚ} (hq : q.matrix.UpperTriangular q.size) :
    folded q.toSymmetric = q.matrix := by
  have hsquare : q.matrix.rows = q.matrix.cols := hq.rows.trans hq.cols.symm
  have hshape := upperTriangular_folded q.toSymmetric
  apply Matrix.ext_entry (hshape.rows.trans hq.rows.symm) (hshape.cols.trans hq.cols.symm)
  intro i j _ _
  by_cases hij : i ≤ j
  · exact entry_folded_toSymmetric hsquare hij
  · rw [hshape.below i j (Nat.lt_of_not_le hij), hq.below i j (Nat.lt_of_not_le hij)]

/-- The symmetric table keeps the form: it is folded into a table with the same energies. -/
theorem energy_eq_form_toSymmetric {q : Qubo ℚ} (hsquare : q.matrix.rows = q.matrix.cols)
    {x : BitString} (hx : x.length = q.size) :
    q.energy x.bytes = .ok (q.offset + q.toSymmetric.form x) := by
  have hfolded := energy_folded (m := q.toSymmetric) rfl q.offset hx
  have hrows : q.matrix.rows = (folded q.toSymmetric).rows := rfl
  have hcols : q.matrix.cols = (folded q.toSymmetric).cols := hsquare.symm
  rw [← hfolded, energy, energy]
  exact Matrix.energy_congr hrows hcols
    (fun i j hij => (entry_folded_toSymmetric hsquare hij).symm) q.offset x.bytes

/-! ## Models and their tables -/

/-- Making a model of a table is refused exactly if the table is not square; otherwise the model is
upper triangular, has the form of the table and is made of its own table again.  The symmetric
table of a square model has the form of the model, and what is made of it is the upper triangle of
the model, so the model itself if there is nothing below.  Both tables are those that are filled
place by place. -/
theorem ofMatrix_toSymmetric :
    (∀ (m : Matrix ℚ) (c : ℚ),
      (∀ e, ofMatrix m c = .error e ↔ m.rows ≠ m.cols ∧ e = ⟨m.rows, m.cols, m.rows⟩) ∧
      (m.rows = m.cols → ∃ q, ofMatrix m c = .ok q ∧ q = ⟨accumulated m, c⟩ ∧
        q.matrix.UpperTriangular m.rows ∧
        (∀ x : BitString, x.length = m.rows → q.energy x.bytes = .ok (c + m.form x)) ∧
        ofMatrix q.matrix q.offset = .ok q)) ∧
    ∀ q : Qubo ℚ, q.matrix.rows = q.matrix.cols →
      q.toSymmetric = q.spread ∧
      (q.toSymmetric? = if Matrix.fits q.size q.size then some q.toSymmetric else none) ∧
      (q.toSymmetric.rows = q.size ∧ q.toSymmetric.cols = q.size ∧
        ∀ i j, q.toSymmetric.entry i j = q.toSymmetric.entry j i) ∧
      (∀ x : BitString, x.length = q.size →
        q.energy x.bytes = .ok (q.offset + q.toSymmetric.form x)) ∧
      ∃ p, ofMatrix q.toSymmetric q.offset = .ok p ∧ p.offset = q.offset ∧
        p.matrix.UpperTriangular q.size ∧
        (∀ i j, i ≤ j → p.matrix.entry i j = q.matrix.entry i j) ∧
        (q.matrix.UpperTriangular q.size → p = q) := by
  refine ⟨fun m c => ⟨fun e => ofMatrix_eq_error_iff, fun hsquare => ?_⟩, fun q hsquare => ?_⟩
  · refine ⟨⟨folded m, c⟩, ofMatrix_eq_ok hsquare c, ?_, upperTriangular_folded m,
      fun x hx => energy_folded hsquare c hx, ?_⟩
    · rw [accumulated_eq hsquare]
    · have hshape := upperTriangular_folded m
      rw [ofMatrix_eq_ok (hshape.rows.trans hshape.cols.symm), folded_eq_self hshape]
  · refine ⟨(spread_eq hsquare).symm, toSymmetric?_eq hsquare, ⟨rfl, rfl, q.toSymmetric_comm⟩,
      fun x hx => energy_eq_form_toSymmetric hsquare hx, ?_⟩
    refine ⟨⟨folded q.toSymmetric, q.offset⟩, ofMatrix_eq_ok rfl q.offset, rfl,
      upperTriangular_folded q.toSymmetric,
      fun i j hij => entry_folded_toSymmetric hsquare hij, fun hq => ?_⟩
    exact congrArg (Qubo.mk · q.offset) (folded_toSymmetric hq)

/-- A full table is folded into a model, and a model made of its symmetric table again. -/
theorem ofMatrix_toSymmetric_full :
    let m : Matrix ℚ := .ofFn 2 2 fun i j => 2 * i + j + 1
    let q : Qubo ℚ := ⟨.ofFn 2 2 fun i j => if i = j then 1 else if i < j then 5 else 0, 3⟩
    let x : BitString := ⟨[1, 1]⟩
    m.rows = m.cols ∧ (∃ p, ofMatrix m 4 = .ok p ∧ p.energy x.bytes = .ok 14) ∧
      q.matrix.rows = q.matrix.cols ∧ q.energy x.bytes = .ok (3 + q.toSymmetric.form x) ∧
      q.matrix.UpperTriangular q.size ∧ ofMatrix q.toSymmetric 3 = .ok q := by
  intro m q x
  have hq : q.matrix.UpperTriangular q.size := by
    refine ⟨rfl, rfl, fun i j hji => ?_⟩
    rw [Matrix.entry_ofFn, if_neg (by omega : ¬i = j), if_neg (by omega : ¬i < j), ite_self]
  obtain ⟨hfold, hspread⟩ := ofMatrix_toSymmetric
  obtain ⟨p, hp, -, -, henergy, -⟩ := (hfold m 4).2 rfl
  obtain ⟨-, -, -, hform, p', hp', -, -, -, heq⟩ := hspread q rfl
  have hbit0 : x.point 0 = 1 := by rw [BitString.point_eq, if_pos ⟨1, rfl, by decide⟩]
  have hbit1 : x.point 1 = 1 := by rw [BitString.point_eq, if_pos ⟨1, rfl, by decide⟩]
  have htotal : 4 + m.form x = 14 := by
    have hrows : m.rows = 2 := rfl
    have hcols : m.cols = 2 := rfl
    have hentry : m.entry 0 0 = 1 ∧ m.entry 0 1 = 2 ∧ m.entry 1 0 = 3 ∧ m.entry 1 1 = 4 := by
      decide +kernel
    simp only [Matrix.form, hrows, hcols, Finset.sum_range_succ, Finset.range_zero,
      Finset.sum_empty, hbit0, hbit1, hentry]
    norm_num
  refine ⟨rfl, ⟨p, hp, ?_⟩, rfl, hform x rfl, hq, ?_⟩
  · rw [henergy x rfl, htotal]
  · rw [heq hq] at hp'
    exact hp'

end Qubo

end QuboProbe
