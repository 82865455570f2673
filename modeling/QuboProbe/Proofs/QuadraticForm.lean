/-
  QuboProbe.Proofs.QuadraticForm

  The energy as a double sum over all positions, a bit counting one where its
  byte is not zero (`BitString.point`):

    offset + Σ_i Q[i][i]·x_i + Σ_{i<j} Q[i][j]·x_i·x_j

  The code walks the list of the set positions with the rest of the list at
  hand.  As that list ascends, each pair is met once, its smaller position
  first (`Matrix.addActive_eq_sum`); so every place that is read lies in the
  table (`Matrix.energy?_eq`) and none below the diagonal
  (`Matrix.energy_congr`).
-/
import QuboProbe.Proofs.Encoding.Affine
import QuboProbe.Proofs.Energy
import QuboProbe.Proofs.Matrix

namespace QuboProbe

/-- What is refused under a condition alone. -/
theorem refused_iff {ε β : Type} {c : Prop} [Decidable c] {e e' : ε} {v : β} :
    (if c then Except.error e' else .ok v) = .error e ↔ c ∧ e = e' := by
  by_cases h : c
  · rw [if_pos h, Except.error.injEq, eq_comm]
    exact (and_iff_right h).symm
  · rw [if_neg h]
    exact iff_of_false (by simp) fun he => h he.1

/-! ## Sums over the set positions -/

namespace BitString

variable {x : BitString} {n : Nat}

theorem sum_mul_point (hx : x.length = n) (f : Nat → ℚ) :
    ∑ i ∈ Finset.range n, f i * x.point i = ∑ i ∈ x.support, f i := by
  have hsub : x.support ⊆ Finset.range n := hx ▸ support_subset x
  rw [← Finset.inter_eq_right.2 hsub, ← Finset.filter_mem_eq_inter, Finset.sum_filter]
  apply Finset.sum_congr rfl
  intro i _
  rw [point, setPoint, mul_ite, mul_one, mul_zero]

/-- A sum over pairs of positions keeps the pairs of set ones. -/
theorem sum_pairs_mul_point (hx : x.length = n) (f : Nat → Nat → ℚ) :
    ∑ i ∈ Finset.range n, ∑ j ∈ Finset.range n with i < j, f i j * x.point i * x.point j =
      ∑ i ∈ x.support, ∑ j ∈ x.support with i < j, f i j := by
  have hinner (i : Nat) :
      ∑ j ∈ Finset.range n with i < j, f i j * x.point i * x.point j =
        (∑ j ∈ x.support with i < j, f i j) * x.point i := by
    rw [Finset.sum_filter, Finset.sum_filter, ← sum_mul_point hx, Finset.sum_mul]
    apply Finset.sum_congr rfl
    intro j _
    by_cases hij : i < j
    · rw [if_pos hij, if_pos hij]
      ring
    · rw [if_neg hij, if_neg hij, zero_mul, zero_mul]
  simp only [hinner]
  exact sum_mul_point hx _

end BitString

namespace Matrix

/-! ## Places that are read -/

section

variable {α : Type} [Zero α] [Add α] {q : Matrix α}

/-- `addActive`, through the view that has no entry outside of the table. -/
def addActive? (q : Matrix α) : α → List Nat → Option α
  | total, [] => some total
  | total, i :: later => do
    let diagonal ← q.get? i i
    let total ← later.foldlM (fun t j => (q.get? i j).map (t + ·)) (total + diagonal)
    q.addActive? total later

/-- `energy`, through the view that has no entry outside of the table. -/
def energy? (q : Matrix α) (offset : α) (x : List UInt8) : Option (Except DimensionError α) :=
  if q.rows ≠ q.cols ∨ x.length ≠ q.rows then some (.error ⟨q.rows, q.cols, x.length⟩)
  else (q.addActive? offset (BitString.active x)).map .ok

theorem foldlM_row {i : Nat} (hi : i < q.rows) {later : List Nat}
    (hlater : ∀ j ∈ later, j < q.cols) (total : α) :
    later.foldlM (fun t j => (q.get? i j).map (t + ·)) total =
      some (later.foldl (fun t j => t + q.entry i j) total) := by
  induction later generalizing total with
  | nil => rfl
  | cons j later ih =>
    rw [List.foldlM_cons, get?_eq_entry hi (hlater j List.mem_cons_self)]
    exact ih (fun j' hj' => hlater j' (List.mem_cons_of_mem j hj')) _

/-- Positions of a square table are read inside of it. -/
theorem addActive?_eq {l : List Nat} (hrows : ∀ i ∈ l, i < q.rows) (hcols : ∀ i ∈ l, i < q.cols)
    (total : α) : q.addActive? total l = some (q.addActive total l) := by
  induction l generalizing total with
  | nil => rfl
  | cons i later ih =>
    have hi := hrows i List.mem_cons_self
    have hrest (j : Nat) (hj : j ∈ later) := hcols j (List.mem_cons_of_mem i hj)
    -- the diagonal entry, the row behind it, then the later positions
    rw [addActive?, get?_eq_entry hi (hcols i List.mem_cons_self), Option.bind_eq_bind,
      Option.bind_some, foldlM_row hi hrest, Option.bind_some]
    exact ih (fun j hj => hrows j (List.mem_cons_of_mem i hj)) hrest _

theorem energy_eq_error_iff {offset : α} {x : List UInt8} {e : DimensionError} :
    q.energy offset x = .error e ↔
      (q.rows ≠ q.cols ∨ x.length ≠ q.rows) ∧ e = ⟨q.rows, q.cols, x.length⟩ := by
  rw [energy]
  exact refused_iff

/-- The energy never reads outside of the table. -/
theorem energy?_eq (q : Matrix α) (offset : α) (x : List UInt8) :
    q.energy? offset x = some (q.energy offset x) := by
  rw [energy?, energy]
  by_cases h : q.rows ≠ q.cols ∨ x.length ≠ q.rows
  · rw [if_pos h, if_pos h]
  · rw [if_neg h, if_neg h]
    obtain ⟨hsquare, hlength⟩ : q.rows = q.cols ∧ x.length = q.rows := by omega
    have hactive : ∀ i ∈ BitString.active x, i < x.length := fun i hi => by
      obtain ⟨b, hb, -⟩ := BitString.mem_active.1 hi
      exact (List.getElem?_eq_some_iff.1 hb).1
    rw [addActive?_eq (fun i hi => hlength ▸ hactive i hi)
      (fun i hi => hsquare ▸ hlength ▸ hactive i hi), Option.map_some]

theorem addActive_congr {p : Matrix α} {l : List Nat} (hl : l.Pairwise (· < ·))
    (h : ∀ i j, i ≤ j → p.entry i j = q.entry i j) (total : α) :
    p.addActive total l = q.addActive total l := by
  induction l generalizing total with
  | nil => rfl
  | cons i later ih =>
    obtain ⟨hi, hlater⟩ := List.pairwise_cons.1 hl
    have hrow : later.foldl (fun t j => t + p.entry i j) (total + p.entry i i) =
        later.foldl (fun t j => t + q.entry i j) (total + q.entry i i) := by
      rw [h i i (Nat.le_refl i)]
      exact List.foldl_ext _ _ _ fun t j hj => by rw [h i j (Nat.le_of_lt (hi j hj))]
    rw [addActive, addActive, hrow, ih hlater]

/-- Tables of one shape that agree on and above the diagonal have the same energies. -/
theorem energy_congr {p : Matrix α} (hrows : p.rows = q.rows) (hcols : p.cols = q.cols)
    (h : ∀ i j, i ≤ j → p.entry i j = q.entry i j) (offset : α) (x : List UInt8) :
    p.energy offset x = q.energy offset x := by
  rw [energy, energy, hrows, hcols, addActive_congr (BitString.pairwise_active x) h]

end

/-! ## The double sum -/

/-- The positions of an ascending list: one diagonal entry each, and one entry for each pair, in
the row of the smaller. -/
theorem addActive_eq_sum {α : Type} [AddCommMonoid α] (q : Matrix α) {l : List Nat}
    (hl : l.Pairwise (· < ·)) (total : α) :
    q.addActive total l = total + ∑ i ∈ l.toFinset, q.entry i i +
      ∑ i ∈ l.toFinset, ∑ j ∈ l.toFinset with i < j, q.entry i j := by
  induction l generalizing total with
  | nil => simp [addActive]
  | cons i later ih =>
    obtain ⟨hi, hlater⟩ := List.pairwise_cons.1 hl
    have hless : ∀ j ∈ later.toFinset, i < j := fun j hj => hi j (List.mem_toFinset.1 hj)
    have hnotin : i ∉ later.toFinset := fun hin => Nat.lt_irrefl i (hless i hin)
    -- the first position is paired with all later ones, and no later one with it
    have hfirst : (insert i later.toFinset).filter (i < ·) = later.toFinset := by
      rw [Finset.filter_insert, if_neg (Nat.lt_irrefl i), Finset.filter_true_of_mem hless]
    have hothers : ∀ i' ∈ later.toFinset,
        (insert i later.toFinset).filter (i' < ·) = later.toFinset.filter (i' < ·) :=
      fun i' hi' => by rw [Finset.filter_insert, if_neg (Nat.lt_asymm (hless i' hi'))]
    have hpairs : ∑ i' ∈ later.toFinset, ∑ j ∈ insert i later.toFinset with i' < j, q.entry i' j =
        ∑ i' ∈ later.toFinset, ∑ j ∈ later.toFinset with i' < j, q.entry i' j :=
      Finset.sum_congr rfl fun i' hi' => by rw [hothers i' hi']
    rw [addActive, foldl_row q i (hlater.imp Nat.ne_of_lt), ih hlater, List.toFinset_cons,
      Finset.sum_insert hnotin, Finset.sum_insert hnotin, hfirst, hpairs]
    abel

/-- The energy, summed over the set positions. -/
theorem energy_eq_support {α : Type} [AddCommMonoid α] {q : Matrix α} {x : BitString}
    (hsquare : q.rows = q.cols) (hx : x.length = q.rows) (offset : α) :
    q.energy offset x.bytes = .ok (offset + ∑ i ∈ x.support, q.entry i i +
      ∑ i ∈ x.support, ∑ j ∈ x.support with i < j, q.entry i j) := by
  have hshape : ¬(q.rows ≠ q.cols ∨ x.bytes.length ≠ q.rows) := by
    rintro (h | h)
    · exact h hsquare
    · exact h hx
  rw [energy, if_neg hshape, addActive_eq_sum q (BitString.pairwise_active x.bytes)]
  rfl

/-- The energy in exact arithmetic. -/
theorem energy_eq_sum {q : Matrix ℚ} {x : BitString} (hsquare : q.rows = q.cols)
    (hx : x.length = q.rows) (offset : ℚ) :
    q.energy offset x.bytes =
      .ok (offset + ∑ i ∈ Finset.range q.rows, q.entry i i * x.point i +
        ∑ i ∈ Finset.range q.rows, ∑ j ∈ Finset.range q.rows with i < j,
          q.entry i j * x.point i * x.point j) := by
  rw [energy_eq_support hsquare hx, BitString.sum_mul_point hx, BitString.sum_pairs_mul_point hx]

/-- The energy is the upper triangular quadratic form.  It is refused exactly for a table that is
not square or a string of another length; no place outside of the table is read and none below the
diagonal matters, whatever numbers are added up; and in exact arithmetic it is the double sum. -/
theorem energy_quadraticForm (x : BitString) :
    (∀ {α : Type} [Zero α] [Add α] (q : Matrix α) (offset : α),
      (∀ e, q.energy offset x.bytes = .error e ↔
        (q.rows ≠ q.cols ∨ x.length ≠ q.rows) ∧ e = ⟨q.rows, q.cols, x.length⟩) ∧
      q.energy? offset x.bytes = some (q.energy offset x.bytes) ∧
      ∀ p : Matrix α, p.rows = q.rows → p.cols = q.cols →
        (∀ i j, i ≤ j → p.entry i j = q.entry i j) →
        p.energy offset x.bytes = q.energy offset x.bytes) ∧
    (∀ i, x.point i = if ∃ b, x.bytes[i]? = some b ∧ b ≠ 0 then 1 else 0) ∧
    ∀ (q : Matrix ℚ) (offset : ℚ), q.rows = q.cols → x.length = q.rows →
      q.energy offset x.bytes =
        .ok (offset + ∑ i ∈ Finset.range q.rows, q.entry i i * x.point i +
          ∑ i ∈ Finset.range q.rows, ∑ j ∈ Finset.range q.rows with i < j,
            q.entry i j * x.point i * x.point j) := by
  refine ⟨fun q offset => ⟨fun e => energy_eq_error_iff, energy?_eq q offset x.bytes, ?_⟩,
    fun i => BitString.point_eq x.bytes i,
    fun q offset hsquare hx => energy_eq_sum hsquare hx offset⟩
  exact fun p hrows hcols h => energy_congr hrows hcols h offset x.bytes

/-- A table with an entry below the diagonal, which changes nothing, and a byte that is not one. -/
theorem energy_quadraticForm_below :
    let q : Matrix ℚ := .ofFn 2 2 fun i j => if i = j then 1 else if i < j then 2 else 5
    let p : Matrix ℚ := .ofFn 2 2 fun i j => if i = j then 1 else if i < j then 2 else 0
    let x : BitString := ⟨[7, 1]⟩
    q.rows = q.cols ∧ x.length = q.rows ∧ p.rows = q.rows ∧ p.cols = q.cols ∧
      (∀ i j, i ≤ j → p.entry i j = q.entry i j) ∧ p.entry 1 0 ≠ q.entry 1 0 ∧
      q.energy 3 x.bytes = .ok 7 ∧ p.energy 3 x.bytes = .ok 7 := by
  intro q p x
  have hagree : ∀ i j, i ≤ j → p.entry i j = q.entry i j := fun i j hij => by
    rw [entry_ofFn, entry_ofFn]
    by_cases hdiagonal : i = j
    · simp [hdiagonal]
    · have hlt : i < j := by omega
      simp [hdiagonal, hlt]
  have hbelow : p.entry 1 0 ≠ q.entry 1 0 := by
    rw [entry_ofFn, entry_ofFn]
    simp
  obtain ⟨hany, hpoint, hform⟩ := energy_quadraticForm x
  have hx0 : x.point 0 = 1 := by rw [hpoint, if_pos ⟨7, rfl, by decide⟩]
  have hx1 : x.point 1 = 1 := by rw [hpoint, if_pos ⟨1, rfl, by decide⟩]
  have hdiagonal : q.entry 0 0 = 1 ∧ q.entry 1 1 = 1 ∧ q.entry 0 1 = 2 := by decide +kernel
  have henergy : q.energy 3 x.bytes = .ok 7 := by
    rw [hform q 3 rfl rfl]
    have hrows : q.rows = 2 := rfl
    simp only [hrows, Finset.sum_filter, Finset.sum_range_succ, Finset.range_zero, Finset.sum_empty,
      hx0, hx1, hdiagonal]
    norm_num
  refine ⟨rfl, rfl, rfl, rfl, hagree, hbelow, henergy, ?_⟩
  rw [(hany q 3).2.2 p rfl rfl hagree, henergy]

end Matrix

end QuboProbe
