/-
  QuboProbe.Matrix

  Rectangular tables of numbers, kept row after row.  `Matrix.get?` is the view
  through which a table is read; `Matrix.entry` reads zero outside of it.
-/
import QuboProbe.Capacity

namespace QuboProbe

structure Matrix (α : Type) where
  rows : Nat
  cols : Nat
  data : Array α
  size_eq : data.size = rows * cols

namespace Matrix

variable {α : Type}

def ofFn (rows cols : Nat) (f : Nat → Nat → α) : Matrix α where
  rows := rows
  cols := cols
  data := Array.ofFn fun k : Fin (rows * cols) => f (k / cols) (k % cols)
  size_eq := by simp

/-- The table of a list of entries, row after row, if they are as many as its places. -/
def ofList? (rows cols : Nat) (entries : List α) : Option (Matrix α) :=
  if h : entries.length = rows * cols then some ⟨rows, cols, entries.toArray, by simpa using h⟩
  else none

def zeros [Zero α] (rows cols : Nat) : Matrix α :=
  ⟨rows, cols, Array.replicate (rows * cols) 0, by simp⟩

/-- The entry at a place of the table. -/
@[inline] def get? (m : Matrix α) (i j : Nat) : Option α :=
  if j < m.cols then m.data[i * m.cols + j]? else none

/-- The entry at a place, zero outside the table. -/
@[inline] def entry [Zero α] (m : Matrix α) (i j : Nat) : α := (m.get? i j).getD 0

/-- The table with another entry at a place; nothing changes when it has no such place. -/
def set (m : Matrix α) (i j : Nat) (v : α) : Matrix α :=
  if j < m.cols then
    ⟨m.rows, m.cols, m.data.setIfInBounds (i * m.cols + j) v, by simpa using m.size_eq⟩
  else m

/-- The places, row after row. -/
def places (m : Matrix α) : List (Nat × Nat) :=
  (List.range (m.rows * m.cols)).map fun k => (k / m.cols, k % m.cols)

/-- Whether a table of numbers of this shape can be held. -/
def fits (rows cols : Nat) : Bool := Capacity.holds Capacity.wordSize (rows * cols)

/-- The entries, a list for each row. -/
def rowLists [Zero α] (m : Matrix α) : List (List α) :=
  (List.range m.rows).map fun i => (List.range m.cols).map fun j => m.entry i j

/-- Equality of tables: the same shape, and entries that are equal one by one. -/
instance [BEq α] : BEq (Matrix α) :=
  ⟨fun m n => m.rows == n.rows && m.cols == n.cols && m.data == n.data⟩

/-! ## Places -/

theorem place_lt {rows cols i j : Nat} (hi : i < rows) (hj : j < cols) :
    i * cols + j < rows * cols := by
  have : (i + 1) * cols ≤ rows * cols := Nat.mul_le_mul_right cols hi
  rw [Nat.add_mul, Nat.one_mul] at this
  omega

theorem place_div {cols i j : Nat} (hj : j < cols) : (i * cols + j) / cols = i := by
  rw [Nat.mul_comm, Nat.mul_add_div (by omega), Nat.div_eq_of_lt hj, Nat.add_zero]

theorem place_mod {cols i j : Nat} (hj : j < cols) : (i * cols + j) % cols = j := by
  rw [Nat.mul_comm, Nat.mul_add_mod, Nat.mod_eq_of_lt hj]

theorem get?_isSome_iff (m : Matrix α) (i j : Nat) :
    (m.get? i j).isSome ↔ i < m.rows ∧ j < m.cols := by
  unfold get?
  split
  · rename_i hj
    rw [Option.isSome_iff_ne_none, ne_eq, Array.getElem?_eq_none_iff, m.size_eq, Nat.not_le]
    simp only [hj, and_true]
    constructor
    · intro h
      by_cases hi : i < m.rows
      · exact hi
      · have : m.rows * m.cols ≤ i * m.cols := Nat.mul_le_mul_right m.cols (by omega)
        omega
    · exact fun hi => place_lt hi hj
  · rename_i hj
    simp [hj]

theorem get?_ofFn (rows cols : Nat) (f : Nat → Nat → α) (i j : Nat) :
    (ofFn rows cols f).get? i j = if i < rows ∧ j < cols then some (f i j) else none := by
  split
  · rename_i h
    have hp := place_lt h.1 h.2
    simp [get?, ofFn, h.2, hp, place_div h.2, place_mod h.2]
  · rename_i h
    rw [Option.eq_none_iff_forall_ne_some]
    intro a ha
    have := (get?_isSome_iff (ofFn rows cols f) i j).1 (by simp [ha])
    exact h this

theorem get?_zeros [Zero α] (rows cols i j : Nat) :
    (zeros rows cols : Matrix α).get? i j = if i < rows ∧ j < cols then some 0 else none := by
  split
  · rename_i h
    have hp := place_lt h.1 h.2
    simp [get?, zeros, h.2, hp]
  · rename_i h
    rw [Option.eq_none_iff_forall_ne_some]
    intro a ha
    have := (get?_isSome_iff (zeros rows cols : Matrix α) i j).1 (by simp [ha])
    exact h this

@[simp] theorem rows_set (m : Matrix α) (i j : Nat) (v : α) : (m.set i j v).rows = m.rows := by
  unfold set; split <;> rfl

@[simp] theorem cols_set (m : Matrix α) (i j : Nat) (v : α) : (m.set i j v).cols = m.cols := by
  unfold set; split <;> rfl

/-- Setting a place of the table changes that place alone. -/
theorem get?_set (m : Matrix α) {i j : Nat} (hi : i < m.rows) (hj : j < m.cols) (v : α)
    (i' j' : Nat) :
    (m.set i j v).get? i' j' = if i' = i ∧ j' = j then some v else m.get? i' j' := by
  have hp := place_lt hi hj
  by_cases hj' : j' < m.cols
  · simp only [get?, cols_set, hj', if_true]
    rw [set, if_pos hj]
    simp only [Array.getElem?_setIfInBounds, m.size_eq, hp, if_true]
    by_cases h : i' = i ∧ j' = j
    · simp [h.1, h.2]
    · rw [if_neg h, if_neg]
      intro heq
      have hd := congrArg (· / m.cols) heq
      have hm := congrArg (· % m.cols) heq
      simp only [place_div hj, place_div hj', place_mod hj, place_mod hj'] at hd hm
      exact h ⟨hd.symm, hm.symm⟩
  · simp only [get?, cols_set, hj', if_false]
    rw [if_neg]
    rintro ⟨_, rfl⟩
    exact hj' hj

/-- A table is known by its shape and what is read from it. -/
theorem ext_get? {m n : Matrix α} (hr : m.rows = n.rows) (hc : m.cols = n.cols)
    (h : ∀ i j, m.get? i j = n.get? i j) : m = n := by
  obtain ⟨rows, cols, data, hs⟩ := m
  obtain ⟨rows', cols', data', hs'⟩ := n
  simp only at hr hc
  subst hr hc
  have : data = data' := by
    apply Array.ext
    · rw [hs, hs']
    · intro k hk hk'
      have hcols : 0 < cols := by
        rcases Nat.eq_zero_or_pos cols with h0 | h0
        · rw [hs, h0] at hk; omega
        · exact h0
      have hj := Nat.mod_lt k hcols
      have he := h (k / cols) (k % cols)
      simp only [get?, hj, if_true, Nat.div_add_mod'] at he
      simpa [hk, hk'] using he
  subst this
  rfl

end Matrix

end QuboProbe
