/-
  QuboProbe.Energy

  The energy of a bit string under an upper triangular quadratic form:

    offset + Σ Q[i][i]·x_i + Σ_{i<j} Q[i][j]·x_i·x_j

  A position counts when its byte is not zero, and entries below the diagonal
  are never read.  The terms are added in the order of the positions, each
  diagonal entry before the pairs that start there.
-/
import QuboProbe.BitString
import QuboProbe.Matrix

namespace QuboProbe

/-- A table that is not square, or a bit string of another length. -/
structure DimensionError where
  rows : Nat
  cols : Nat
  length : Nat
deriving DecidableEq

def DimensionError.message (e : DimensionError) : String :=
  s!"차원 불일치: 행렬 {e.rows}x{e.cols}, 벡터 길이 {e.length}"

namespace Matrix

variable {α : Type} [Zero α] [Add α]

/-- Adds, for each position in turn, its diagonal entry and its pairs with the later ones. -/
@[specialize] def addActive (q : Matrix α) : α → List Nat → α
  | total, [] => total
  | total, i :: later =>
    q.addActive (later.foldl (fun t j => t + q.entry i j) (total + q.entry i i)) later

@[specialize] def energy (q : Matrix α) (offset : α) (x : List UInt8) : Except DimensionError α :=
  if q.rows ≠ q.cols ∨ x.length ≠ q.rows then .error ⟨q.rows, q.cols, x.length⟩
  else .ok (q.addActive offset (BitString.active x))

end Matrix

end QuboProbe
