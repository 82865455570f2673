/-
  QuboProbe.Qubo

  Quadratic binary models: a table of coefficients, of which the diagonal and
  what is above it count, and an offset.  `Qubo.ofMatrix` folds any square
  table into that form; a model read from outside is kept as it is.
-/
import QuboProbe.Energy
import QuboProbe.Scalar

namespace QuboProbe

structure Qubo (α : Type) where
  matrix : Matrix α
  offset : α

/-- A coefficient that is not zero, with its positions. -/
structure Term (α : Type) where
  i : Nat
  j : Nat
  coefficient : α

/-- A coefficient on the diagonal. -/
def Term.isLinear {α : Type} (t : Term α) : Bool := t.i == t.j

namespace Qubo

variable {α : Type}

/-- The model of `n` bits that is zero everywhere. -/
def zeros [Zero α] (n : Nat) : Qubo α := ⟨.zeros n n, 0⟩

/-- `zeros`, for a table that can be held. -/
def zeros? [Zero α] (n : Nat) : Option (Qubo α) := if Matrix.fits n n then some (zeros n) else none

/-- The upper triangular table with the same quadratic form: what stands at two places that
face each other across the diagonal is added up above it. -/
def folded [Zero α] [Add α] (m : Matrix α) : Matrix α :=
  .ofFn m.rows m.rows fun i j =>
    if i = j then 0 + m.entry i i
    else if i < j then 0 + m.entry i j + m.entry j i
    else 0

/-- The model of a square table. -/
def ofMatrix [Zero α] [Add α] (m : Matrix α) (offset : α) : Except DimensionError (Qubo α) :=
  if m.rows ≠ m.cols then .error ⟨m.rows, m.cols, m.rows⟩ else .ok ⟨folded m, offset⟩

/-- The number of bits. -/
def size (q : Qubo α) : Nat := q.matrix.rows

/-- The coefficient of one bit. -/
def linear? (q : Qubo α) (i : Nat) : Option α := q.matrix.get? i i

/-- The coefficient of two bits, in either order. -/
def quadratic? (q : Qubo α) (i j : Nat) : Option α :=
  if i ≤ j then q.matrix.get? i j else q.matrix.get? j i

theorem quadratic?_eq_get? (q : Qubo α) (i j : Nat) :
    q.quadratic? i j = q.matrix.get? (min i j) (max i j) := by
  rw [quadratic?]
  split
  · rw [Nat.min_eq_left ‹_›, Nat.max_eq_right ‹_›]
  · rw [Nat.min_eq_right (Nat.le_of_not_le ‹_›), Nat.max_eq_left (Nat.le_of_not_le ‹_›)]

@[specialize] def energy [Zero α] [Add α] (q : Qubo α) (x : List UInt8) : Except DimensionError α :=
  q.matrix.energy q.offset x

/-- The coefficients that are not zero, on and above the diagonal, row after row. -/
def terms [Zero α] [BEq α] (q : Qubo α) : List (Term α) :=
  (q.matrix.places.filter fun p => decide (p.1 ≤ p.2) && q.matrix.entry p.1 p.2 != 0).map
    fun p => ⟨p.1, p.2, q.matrix.entry p.1 p.2⟩

/-- The symmetric table with the same quadratic form: half of each coefficient above the diagonal
stands on either side of it. -/
def toSymmetric [Zero α] [Scalar α] (q : Qubo α) : Matrix α :=
  .ofFn q.size q.size fun i j =>
    if i = j then q.matrix.entry i i
    else Scalar.half (q.matrix.entry (min i j) (max i j))

/-- `toSymmetric`, unless a coefficient above the diagonal has no place below it, or the square
table cannot be held. -/
def toSymmetric? [Zero α] [Scalar α] (q : Qubo α) : Option (Matrix α) :=
  if 0 < q.matrix.rows ∧ q.matrix.rows < q.matrix.cols then none
  else if Matrix.fits q.size q.size then some q.toSymmetric
  else none

instance [BEq α] : BEq (Qubo α) := ⟨fun p q => p.matrix == q.matrix && p.offset == q.offset⟩

end Qubo

end QuboProbe
