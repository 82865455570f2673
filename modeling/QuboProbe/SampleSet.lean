/-
  QuboProbe.SampleSet

  Candidate solutions with their energies, best first.  `SampleSet.ofList`
  sorts by the total order of the energies and keeps equal ones in their
  order; a set read from outside is kept as it is.
-/
import QuboProbe.Layout.Basic
import QuboProbe.Qubo

namespace QuboProbe

structure Sample (α : Type) where
  bits : BitString
  energy : α

structure SampleSet (α : Type) where
  samples : List (Sample α)

namespace SampleSet

variable {α : Type}

def empty : SampleSet α := ⟨[]⟩

/-- At least as good: an energy that is not ranked after the other. -/
def atLeastAsGood [Scalar α] (a b : Sample α) : Bool := (Scalar.rank a.energy b.energy).isLE

def ofList [Scalar α] (samples : List (Sample α)) : SampleSet α :=
  ⟨samples.mergeSort atLeastAsGood⟩

/-- The candidates with their energies; the first that does not fit the model ends it. -/
def energies [Zero α] [Add α] (q : Qubo α) :
    List BitString → Except DimensionError (List (Sample α))
  | [] => .ok []
  | x :: rest =>
    match q.energy x.bytes with
    | .error e => .error e
    | .ok v =>
      match energies q rest with
      | .error e => .error e
      | .ok samples => .ok (⟨x, v⟩ :: samples)

/-- The candidates, scored by a model. -/
def score [Zero α] [Add α] [Scalar α] (q : Qubo α) (candidates : List BitString) :
    Except DimensionError (SampleSet α) :=
  (energies q candidates).map ofList

/-- The best sample. -/
def first? (s : SampleSet α) : Option (Sample α) := s.samples.head?

/-- The values of the best sample. -/
def decodeFirst? (s : SampleSet α) (l : Layout) : Option (Except CodingError Valuation) :=
  s.first?.map fun best => l.decode best.bits.bytes

def size (s : SampleSet α) : Nat := s.samples.length

end SampleSet

end QuboProbe
