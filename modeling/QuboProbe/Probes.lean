/-
  QuboProbe.Probes

  The bit strings on which a quadratic function of bits is fixed by its
  values: all clear, one position set, two positions set.  Each string after
  the first belongs to one coefficient, whose place `Probes.cells` lists at
  the same position.
-/
import QuboProbe.BitString
import QuboProbe.Supply

namespace QuboProbe.Probes

/-- The pairs of positions `i < j`, in order. -/
def pairs (n : Nat) : List (Nat × Nat) :=
  (List.range n).flatMap fun i => (List.range' (i + 1) (n - (i + 1))).map fun j => (i, j)

/-- The places on and above the diagonal: the diagonal first, then the pairs. -/
def cells (n : Nat) : List (Nat × Nat) := (List.range n).map (fun i => (i, i)) ++ pairs n

/-- All probes of `n` bits. -/
def vectors (n : Nat) : List BitString :=
  .zeros n :: (List.range n).map (BitString.unit n) ++
    (pairs n).map fun p => BitString.pair n p.1 p.2

/-- All probes, made one at a time. -/
def supply (n : Nat) : Supply BitString :=
  .item (.zeros n) fun _ =>
    ((Supply.ofList (List.range n)).map (BitString.unit n)).append fun _ =>
      (Supply.ofList (pairs n)).map fun p => BitString.pair n p.1 p.2

@[simp] theorem toList_supply (n : Nat) : (supply n).toList = vectors n := by
  simp [supply, vectors]

/-- How many there are. -/
def count (n : Nat) : Nat := 1 + n + n * (n - 1) / 2

end QuboProbe.Probes
