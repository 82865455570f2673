/-
  QuboProbe.Proofs.Flip

  Setting one more bit.  The set positions are then those of before and the new
  one (`BitString.support_set`), which makes a pair with each of them: those
  before it meet it in its column, those behind it in its row
  (`sum_pairs_insert_above`).  So the energy grows by the coefficient of the
  bit and by its coefficients with the bits that are set (`Qubo.energy_flip`).
-/
import QuboProbe.Proofs.QuadraticForm

namespace QuboProbe

/-- The ascending pairs with one more position, which stands before some positions and behind the
others. -/
theorem sum_pairs_insert_above {α : Type} [AddCommMonoid α] (f : Nat → Nat → α) {k : Nat}
    {s : Finset Nat} (hk : k ∉ s) :
    ∑ i ∈ insert k s, ∑ j ∈ insert k s with i < j, f i j =
      ∑ j ∈ s, f (min k j) (max k j) + ∑ i ∈ s, ∑ j ∈ s with i < j, f i j := by
  have hrow (i : Nat) : ∑ j ∈ insert k s with i < j, f i j =
      (if i < k then f i k else 0) + ∑ j ∈ s with i < j, f i j := by
    rw [Finset.sum_filter, Finset.sum_insert hk, ← Finset.sum_filter]
  -- the row of the new position, and what the column of it adds to the rows before
  have hmeet : ∑ j ∈ s with k < j, f k j + ∑ j ∈ s, (if j < k then f j k else 0) =
      ∑ j ∈ s, f (min k j) (max k j) := by
    rw [Finset.sum_filter, ← Finset.sum_add_distrib]
    apply Finset.sum_congr rfl
    intro j hj
    have hne : j ≠ k := fun h => hk (h ▸ hj)
    rcases Nat.lt_or_gt_of_ne hne with hlt | hlt
    · rw [if_neg (Nat.lt_asymm hlt), if_pos hlt, zero_add, min_eq_right hlt.le, max_eq_left hlt.le]
    · rw [if_pos hlt, if_neg (Nat.lt_asymm hlt), add_zero, min_eq_left hlt.le, max_eq_right hlt.le]
  rw [Finset.sum_insert hk, hrow, if_neg (Nat.lt_irrefl k), zero_add]
  simp only [hrow, Finset.sum_add_distrib]
  rw [← add_assoc, hmeet]

namespace BitString

/-- A byte that is not zero adds its position to the set ones. -/
theorem support_set {x : BitString} {k : Nat} {b : UInt8} (hk : k < x.length)
    (hb : b ≠ 0) : (⟨x.bytes.set k b⟩ : BitString).support = insert k x.support := by
  ext j
  rw [mem_support, Finset.mem_insert, mem_support, List.getElem?_set]
  by_cases hj : k = j
  · have hk : k < x.bytes.length := hk
    subst hj
    rw [if_pos rfl, if_pos hk]
    exact iff_of_true ⟨b, rfl, hb⟩ (.inl rfl)
  · rw [if_neg hj]
    exact (or_iff_right (Ne.symm hj)).symm

/-- In a string of zeros and ones, the set positions are those of the ones. -/
theorem Binary.mem_support_iff {n : Nat} {x : BitString} (hx : x.Binary n) {j : Nat} :
    j ∈ x.support ↔ x.bytes[j]? = some 1 := by
  rw [mem_support]
  constructor
  · rintro ⟨b, hb, hne⟩
    rwa [(hx.bit b (List.mem_of_getElem? hb)).resolve_left hne] at hb
  · exact fun h => ⟨1, h, by decide⟩

end BitString

namespace Matrix

variable {α : Type} [AddCommMonoid α] {q : Matrix α} {x : BitString}

/-- Setting a clear position adds its diagonal entry and its entries with the set positions. -/
theorem energy_set {k : Nat} {b : UInt8} (hsquare : q.rows = q.cols) (hx : x.length = q.rows)
    (hclear : x.bytes[k]? = some 0) (hb : b ≠ 0) (offset : α) :
    ∃ e, q.energy offset x.bytes = .ok e ∧
      q.energy offset (x.bytes.set k b) =
        .ok (e + (q.entry k k + ∑ j ∈ x.support, q.entry (min k j) (max k j))) := by
  have hk : k < x.length := (List.getElem?_eq_some_iff.1 hclear).1
  have hnew : k ∉ x.support := fun h => by
    obtain ⟨c, hc, hne⟩ := BitString.mem_support.1 h
    exact hne (Option.some.inj (hc.symm.trans hclear))
  have hlength : (⟨x.bytes.set k b⟩ : BitString).length = q.rows :=
    List.length_set.trans hx
  refine ⟨_, energy_eq_support hsquare hx offset, ?_⟩
  rw [energy_eq_support hsquare hlength, BitString.support_set hk hb, Finset.sum_insert hnew,
    sum_pairs_insert_above q.entry hnew]
  congr 1
  abel

end Matrix

namespace Qubo

/-- The coefficient of two bits, as the table has it. -/
theorem quadratic?_eq_entry {α : Type} [Zero α] {q : Qubo α}
    (hsquare : q.matrix.rows = q.matrix.cols) {i j : Nat} (hi : i < q.size) (hj : j < q.size) :
    q.quadratic? i j = some (q.matrix.entry (min i j) (max i j)) := by
  have hmin : min i j < q.matrix.rows := Nat.lt_of_le_of_lt (Nat.min_le_left i j) hi
  have hmax : max i j < q.matrix.cols := hsquare ▸ Nat.max_lt.2 ⟨hi, hj⟩
  rw [quadratic?_eq_get?, Matrix.get?_eq_entry hmin hmax]

/-- Setting a clear bit changes the energy locally: by the coefficient of the bit and its
coefficients with the other bits that are set, each read in either order. -/
theorem energy_flip {q : Qubo ℚ} {x : BitString} {k : Nat}
    (hsquare : q.matrix.rows = q.matrix.cols) (hx : x.Binary q.size)
    (hclear : x.bytes[k]? = some 0) :
    ∃ (e e' linear : ℚ) (quadratic : Nat → ℚ),
      q.energy x.bytes = .ok e ∧ q.energy (x.bytes.set k 1) = .ok e' ∧
      q.linear? k = some linear ∧
      (∀ j < q.size, q.quadratic? k j = some (quadratic j) ∧
        q.quadratic? j k = some (quadratic j)) ∧
      e' - e = linear +
        ∑ j ∈ Finset.range q.size with j ≠ k ∧ x.bytes[j]? = some 1, quadratic j := by
  have hk : k < q.size := hx.length_eq ▸ (List.getElem?_eq_some_iff.1 hclear).1
  obtain ⟨e, he, he'⟩ := Matrix.energy_set hsquare hx.length_eq hclear (by decide : (1 : UInt8) ≠ 0)
    q.offset
  have hset :
      (Finset.range q.size).filter (fun j => j ≠ k ∧ x.bytes[j]? = some 1) = x.support := by
    ext j
    rw [Finset.mem_filter, hx.mem_support_iff, Finset.mem_range]
    refine ⟨fun hj => hj.2.2, fun hj => ⟨?_, ?_, hj⟩⟩
    · exact hx.length_eq ▸ (List.getElem?_eq_some_iff.1 hj).1
    · rintro rfl
      cases hj.symm.trans hclear
  refine ⟨e, _, q.matrix.entry k k, fun j => q.matrix.entry (min k j) (max k j), he, he',
    Matrix.get?_eq_entry hk (hsquare ▸ hk), fun j hj => ⟨quadratic?_eq_entry hsquare hk hj, ?_⟩, ?_⟩
  · rw [quadratic?_eq_entry hsquare hj hk, min_comm, max_comm]
  · rw [hset, add_sub_cancel_left]

/-- The middle one of three bits, which meets the first in its column and the last in its row; what
is below the diagonal does not count. -/
theorem energy_flip_middle :
    let q : Qubo ℚ := ⟨⟨3, 3, #[1, 20, 300, 7, 4000, 50000, 7, 7, 600000], rfl⟩, 5⟩
    let x : BitString := ⟨[1, 0, 1]⟩
    q.matrix.rows = q.matrix.cols ∧ x.Binary q.size ∧ x.bytes[1]? = some 0 ∧
      ∃ e e', q.energy x.bytes = .ok e ∧ q.energy (x.bytes.set 1 1) = .ok e' ∧
        e' - e = 4000 + 20 + 50000 := by
  intro q x
  have hx : x.Binary q.size := by decide
  obtain ⟨e, e', linear, quadratic, he, he', hlinear, hquadratic, hdiff⟩ :=
    energy_flip (q := q) rfl hx (rfl : x.bytes[1]? = some 0)
  refine ⟨rfl, hx, rfl, e, e', he, he', ?_⟩
  have h4000 : linear = 4000 := Option.some.inj (hlinear.symm.trans rfl)
  have h20 : quadratic 0 = 20 := Option.some.inj ((hquadratic 0 (by decide)).1.symm.trans rfl)
  have h50000 : quadratic 2 = 50000 :=
    Option.some.inj ((hquadratic 2 (by decide)).1.symm.trans rfl)
  have hset : (Finset.range q.size).filter (fun j => j ≠ 1 ∧ x.bytes[j]? = some 1) = {0, 2} := by
    decide
  rw [hdiff, hset, Finset.sum_pair (by decide), h4000, h20, h50000]
  ring

end Qubo

end QuboProbe
