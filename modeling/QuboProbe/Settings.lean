/-
  QuboProbe.Settings

  How models are compiled and validated.
-/
import QuboProbe.Tolerance

namespace QuboProbe

/-- How much a validation looks at. -/
structure Effort (α : Type) where
  /-- How many random bit strings are tried beyond the probes. -/
  randomSamples : Nat
  seed : UInt64
  /-- Up to this many bits, all bit strings are tried instead. -/
  exhaustiveLimit : Nat
  tolerance : Tolerance α

structure Settings (α : Type) where
  /-- Whether probes are evaluated by several workers. -/
  parallel : Bool
  workers : Nat
  validation : Effort α

variable {α : Type}

namespace Effort

def standard : Effort α := ⟨1000, 0x5eed, 12, .auto⟩

instance [BEq α] : BEq (Effort α) where
  beq a b :=
    a.randomSamples == b.randomSamples && a.seed == b.seed &&
      a.exhaustiveLimit == b.exhaustiveLimit && a.tolerance == b.tolerance

end Effort

namespace Settings

/-- The settings for a machine that runs a number of workers at once. -/
def standard (workers : Nat) : Settings α := ⟨true, workers, .standard⟩

/-- One probe after another. -/
def serial (workers : Nat) : Settings α := { standard workers with parallel := false }

/-- There is at least one worker. -/
def withWorkers (s : Settings α) (workers : Nat) : Settings α :=
  { s with workers := max workers 1 }

instance [BEq α] : BEq (Settings α) where
  beq a b := a.parallel == b.parallel && a.workers == b.workers && a.validation == b.validation

end Settings

end QuboProbe
