/-
  QuboProbe.Proofs.Filling

  Tables that are filled place by place, row after row.  A model is made of a
  square table by adding each entry, in turn, to what stands at its place or at
  the place above the diagonal that it faces (`Qubo.accumulated`); the symmetric
  table of a model, by writing both halves of each coefficient (`Qubo.spread`).

  The loops give the tables that `Qubo.folded` and `Qubo.toSymmetric` describe
  entry by entry, whatever numbers are added: of two places that face each other
  the one above the diagonal comes first (`Matrix.filter_places`).
-/
import QuboProbe.Proofs.Compile.Models
import QuboProbe.Proofs.Matrix
import Mathlib.Data.List.Sort

namespace QuboProbe

/-! ## Places in their order -/

namespace Matrix

variable {α : Type}

/-- The place on or above the diagonal that a place is or faces. -/
def upward (p : Nat × Nat) : Nat × Nat := if p.1 ≤ p.2 then p else p.swap

theorem upward_le (p : Nat × Nat) : (upward p).1 ≤ (upward p).2 := by
  rw [upward]
  split
  · assumption
  · exact Nat.le_of_not_le ‹_›

/-- A square table has the places that face its places. -/
theorem upward_mem_places {m : Matrix α} (hsquare : m.rows = m.cols) {p : Nat × Nat} :
    upward p ∈ m.places ↔ p ∈ m.places := by
  obtain ⟨a, b⟩ := p
  rw [upward]
  split
  · rfl
  · rw [Prod.swap_prod_mk, mem_places, mem_places, hsquare, and_comm]

theorem upward_eq_iff {p : Nat × Nat} {i j : Nat} (hij : i ≤ j) :
    upward p = (i, j) ↔ p = (i, j) ∨ p = (j, i) := by
  obtain ⟨a, b⟩ := p
  simp only [upward, Prod.swap_prod_mk]
  split <;> simp only [Prod.mk.injEq] <;> omega

/-- The places that face each other across the diagonal: the upper one comes first. -/
theorem filter_places {m : Matrix α} (hsquare : m.rows = m.cols) {i j : Nat} (hij : i ≤ j)
    (hj : j < m.cols) :
    m.places.filter (fun p => upward p = (i, j)) = if i = j then [(i, i)] else [(i, j), (j, i)] := by
  have hi : i < m.cols := Nat.lt_of_le_of_lt hij hj
  have hnumber : i ≠ j → i * m.cols + j < j * m.cols + i := fun hne => by
    have hrow : (i + 1) * m.cols ≤ j * m.cols := Nat.mul_le_mul_right m.cols (by omega)
    rw [Nat.add_mul, Nat.one_mul] at hrow
    omega
  -- the numbers of the two places, and both lists of numbers ascend
  have hnumbers : (List.range (m.rows * m.cols)).filter
      (fun k => upward (k / m.cols, k % m.cols) = (i, j)) =
        if i = j then [i * m.cols + i] else [i * m.cols + j, j * m.cols + i] := by
    refine (List.pairwise_lt_range.filter _).eq_of_mem_iff ?_ fun k => ?_
    · split
      · exact List.pairwise_singleton ..
      · rename_i hne
        exact List.pairwise_pair.2 (hnumber hne)
    · have hlower := place_lt (hsquare ▸ hi) hj
      have hupper := place_lt (hsquare ▸ hj) hi
      rw [List.mem_filter, List.mem_range, decide_eq_true_iff, upward_eq_iff hij,
        place_eq_iff hj, place_eq_iff hi]
      split
      · rename_i heq
        subst heq
        rw [List.mem_singleton]
        omega
      · rw [List.mem_pair]
        omega
  have hcomp : (fun p => decide (upward p = (i, j))) ∘ (fun k => (k / m.cols, k % m.cols)) =
      fun k => decide (upward (k / m.cols, k % m.cols) = (i, j)) := rfl
  rw [places, List.filter_map, hcomp, hnumbers]
  split
  · rw [List.map_singleton, (place_eq_iff hi).2 rfl]
  · rw [List.map_cons, List.map_singleton, (place_eq_iff hj).2 rfl, (place_eq_iff hi).2 rfl]

end Matrix

namespace Qubo

/-! ## Adding up -/

section

variable {α : Type} [Zero α] [Add α] {m upper : Matrix α}

/-- Adds the entry of a place to what stands where it belongs. -/
def addEntry (m upper : Matrix α) (p : Nat × Nat) : Matrix α :=
  let place := Matrix.upward p
  upper.set place.1 place.2 (upper.entry place.1 place.2 + m.entry p.1 p.2)

/-- The table to which all entries of a table were added, in the order of their places. -/
def accumulated (m : Matrix α) : Matrix α := m.places.foldl (addEntry m) (.zeros m.rows m.cols)

@[simp] theorem rows_addEntry (m upper : Matrix α) (p : Nat × Nat) :
    (addEntry m upper p).rows = upper.rows := Matrix.rows_set ..

@[simp] theorem cols_addEntry (m upper : Matrix α) (p : Nat × Nat) :
    (addEntry m upper p).cols = upper.cols := Matrix.cols_set ..

theorem entry_addEntry {p : Nat × Nat} (hr : (Matrix.upward p).1 < upper.rows)
    (hc : (Matrix.upward p).2 < upper.cols) (i j : Nat) :
    (addEntry m upper p).entry i j =
      if Matrix.upward p = (i, j) then upper.entry i j + m.entry p.1 p.2 else upper.entry i j := by
  rw [addEntry, Matrix.entry_set hr hc]
  by_cases h : Matrix.upward p = (i, j)
  · rw [if_pos h, h, if_pos ⟨rfl, rfl⟩]
  · rw [if_neg h, if_neg fun hij => h (Prod.ext hij.1.symm hij.2.symm)]

theorem foldl_addEntry_shape (m upper : Matrix α) (places : List (Nat × Nat)) :
    (places.foldl (addEntry m) upper).rows = upper.rows ∧
      (places.foldl (addEntry m) upper).cols = upper.cols := by
  induction places generalizing upper with
  | nil => exact ⟨rfl, rfl⟩
  | cons p places ih =>
    rw [List.foldl_cons]
    obtain ⟨hrows, hcols⟩ := ih (addEntry m upper p)
    exact ⟨hrows.trans (rows_addEntry ..), hcols.trans (cols_addEntry ..)⟩

/-- What was added to an entry: the entries that belong there, in the order of their places. -/
theorem entry_foldl_addEntry {places : List (Nat × Nat)}
    (hplaces : ∀ p ∈ places, (Matrix.upward p).1 < upper.rows ∧ (Matrix.upward p).2 < upper.cols)
    (i j : Nat) :
    (places.foldl (addEntry m) upper).entry i j =
      (places.filter fun p => Matrix.upward p = (i, j)).foldl (fun t p => t + m.entry p.1 p.2)
        (upper.entry i j) := by
  -- the table at the start is any, since it changes from place to place
  induction places generalizing upper with
  | nil => rfl
  | cons p places ih =>
    obtain ⟨hr, hc⟩ := hplaces p List.mem_cons_self
    have hrest : ∀ p' ∈ places, (Matrix.upward p').1 < (addEntry m upper p).rows ∧
        (Matrix.upward p').2 < (addEntry m upper p).cols := fun p' hp' => by
      rw [rows_addEntry, cols_addEntry]
      exact hplaces p' (List.mem_cons_of_mem p hp')
    rw [List.foldl_cons, ih hrest, entry_addEntry hr hc, List.filter_cons]
    by_cases hp : Matrix.upward p = (i, j)
    · rw [if_pos hp, if_pos (decide_eq_true hp), List.foldl_cons]
    · rw [if_neg hp, if_neg (by simpa using hp)]

/-- Adding up gives the folded table, for any numbers and in any arithmetic. -/
theorem accumulated_eq (hsquare : m.rows = m.cols) : accumulated m = folded m := by
  have hin : ∀ p ∈ m.places,
      (Matrix.upward p).1 < (Matrix.zeros m.rows m.cols : Matrix α).rows ∧
        (Matrix.upward p).2 < (Matrix.zeros m.rows m.cols : Matrix α).cols :=
    fun p hp => Matrix.mem_places.1 ((Matrix.upward_mem_places hsquare).2 hp)
  have hshape := foldl_addEntry_shape m (.zeros m.rows m.cols) m.places
  have hrows : (accumulated m).rows = m.rows := hshape.1
  have hcols : (accumulated m).cols = m.cols := hshape.2
  have hrows' : (folded m).rows = m.rows := rfl
  have hcols' : (folded m).cols = m.cols := hsquare
  apply Matrix.ext_entry (hrows.trans hrows'.symm) (hcols.trans hcols'.symm)
  intro i j hi hj
  rw [hrows] at hi
  rw [hcols] at hj
  rw [accumulated, entry_foldl_addEntry hin, Matrix.entry_zeros, folded,
    Matrix.entry_ofFn, if_pos ⟨hi, hsquare ▸ hj⟩]
  rcases Nat.lt_trichotomy i j with hlt | rfl | hlt
  · -- zero, then the entry itself, then the one below the diagonal
    rw [Matrix.filter_places hsquare hlt.le hj, if_neg (Nat.ne_of_lt hlt),
      if_neg (Nat.ne_of_lt hlt), if_pos hlt]
    rfl
  · rw [Matrix.filter_places hsquare (Nat.le_refl i) hj, if_pos rfl, if_pos rfl]
    rfl
  · -- no entry belongs below the diagonal
    have hnone : m.places.filter (fun p => Matrix.upward p = (i, j)) = [] := by
      rw [List.filter_eq_nil_iff]
      intro p _
      rw [decide_eq_true_iff]
      intro heq
      have hle := Matrix.upward_le p
      rw [heq] at hle
      exact Nat.not_lt.2 hle hlt
    rw [hnone, if_neg (by omega), if_neg (by omega)]
    rfl

end

/-! ## Writing halves -/

section

variable {α : Type} [Zero α] [Scalar α]

/-- The table into which the coefficients were written, those of two bits in halves. -/
def spread (q : Qubo α) : Matrix α :=
  q.matrix.places.foldl (fun symmetric p =>
    if p.1 = p.2 then symmetric.set p.1 p.1 (q.matrix.entry p.1 p.1)
    else if p.1 < p.2 then
      (symmetric.set p.1 p.2 (Scalar.half (q.matrix.entry p.1 p.2))).set p.2 p.1
        (Scalar.half (q.matrix.entry p.1 p.2))
    else symmetric) (.zeros q.size q.size)

/-- What stands at a place of the symmetric table. -/
def share (q : Qubo α) (p : Nat × Nat) : α :=
  if p.1 = p.2 then q.matrix.entry p.1 p.1
  else Scalar.half (q.matrix.entry (min p.1 p.2) (max p.1 p.2))

/-- The places that are written when it is the turn of a place. -/
def written (p : Nat × Nat) : List (Nat × Nat) :=
  if p.1 = p.2 then [p] else if p.1 < p.2 then [p, p.swap] else []

theorem mem_written {p p' : Nat × Nat} : p' ∈ written p ↔ Matrix.upward p' = p := by
  obtain ⟨i, j⟩ := p
  rw [written]
  rcases Nat.lt_trichotomy i j with hij | rfl | hij
  · rw [if_neg (Nat.ne_of_lt hij), if_pos hij, List.mem_pair, Matrix.upward_eq_iff hij.le]
    rfl
  · rw [if_pos rfl, List.mem_singleton, Matrix.upward_eq_iff (Nat.le_refl i), or_self]
  · -- nothing belongs below the diagonal
    rw [if_neg (Nat.ne_of_gt hij), if_neg (Nat.lt_asymm hij)]
    refine iff_of_false List.not_mem_nil fun h => ?_
    have hle := Matrix.upward_le p'
    rw [h] at hle
    exact Nat.not_lt.2 hle hij

/-- The loop as a list of writes. -/
theorem spread_eq_foldl (q : Qubo α) :
    q.spread = ((q.matrix.places.flatMap written).map fun p => (p, q.share p)).foldl
      (fun q c => q.set c.1.1 c.1.2 c.2) (.zeros q.size q.size) := by
  rw [List.foldl_map, List.foldl_flatMap, spread]
  apply List.foldl_ext
  rintro symmetric ⟨i, j⟩ -
  rw [written]
  rcases Nat.lt_trichotomy i j with hij | rfl | hij
  · rw [if_neg (Nat.ne_of_lt hij), if_pos hij, if_neg (Nat.ne_of_lt hij), if_pos hij]
    simp only [List.foldl_cons, List.foldl_nil, share, Prod.swap_prod_mk, Nat.ne_of_lt hij,
      Nat.ne_of_gt hij, if_false, min_eq_left hij.le, max_eq_right hij.le, min_eq_right hij.le,
      max_eq_left hij.le]
  · rw [if_pos rfl, if_pos rfl, List.foldl_cons, List.foldl_nil, share, if_pos rfl]
  · rw [if_neg (Nat.ne_of_gt hij), if_neg (Nat.lt_asymm hij), if_neg (Nat.ne_of_gt hij),
      if_neg (Nat.lt_asymm hij), List.foldl_nil]

/-- Writing halves gives the symmetric table. -/
theorem spread_eq {q : Qubo α} (hsquare : q.matrix.rows = q.matrix.cols) :
    q.spread = q.toSymmetric := by
  -- a place is written once, in the turn of the place above the diagonal that it is or faces
  have hmem (i j : Nat) :
      (i, j) ∈ q.matrix.places.flatMap written ↔ i < q.size ∧ j < q.size := by
    rw [List.mem_flatMap]
    simp only [mem_written, exists_eq_right']
    rw [Matrix.upward_mem_places hsquare, Matrix.mem_places, ← hsquare]
    rfl
  have hin : ∀ p ∈ q.matrix.places.flatMap written,
      p.1 < (Matrix.zeros q.size q.size : Matrix α).rows ∧
        p.2 < (Matrix.zeros q.size q.size : Matrix α).cols := fun p hp => (hmem p.1 p.2).1 hp
  have hshape := PseudoBoolean.foldl_set_shape (.zeros q.size q.size)
    ((q.matrix.places.flatMap written).map fun p => (p, q.share p))
  rw [← spread_eq_foldl] at hshape
  have hrows : q.spread.rows = q.toSymmetric.rows := hshape.1
  have hcols : q.spread.cols = q.toSymmetric.cols := hshape.2
  apply Matrix.ext_get? hrows hcols
  intro i j
  rw [spread_eq_foldl, PseudoBoolean.get?_foldl_set _ q.share _ hin, toSymmetric,
    Matrix.get?_ofFn, Matrix.get?_zeros]
  by_cases h : i < q.size ∧ j < q.size
  · rw [if_pos ((hmem i j).2 h), if_pos h]
    rfl
  · rw [if_neg fun hij => h ((hmem i j).1 hij), if_neg h, if_neg h]

end

end Qubo

end QuboProbe
