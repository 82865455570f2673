/-
  QuboProbe.Memo.Tally

  How many look-ups of a memo were answered from it and how many had to
  evaluate.
-/
import QuboProbe.Binary64

namespace QuboProbe

structure Tally where
  hits : Nat
  misses : Nat
deriving DecidableEq, Inhabited

namespace Tally

def zero : Tally := ⟨0, 0⟩

def lookups (t : Tally) : Nat := t.hits + t.misses

/-- The share of hits among all look-ups, in single precision; zero before the first. -/
def rate (t : Tally) : Float32 :=
  if t.lookups = 0 then 0
  else t.hits.toUInt64.toFloat32 / t.lookups.toUInt64.toFloat32

/-- The share of hits as a percentage with one place. -/
def percentText (t : Tally) : String :=
  (Binary64.ofFloat (t.rate * 100).toFloat).fixedText 1

end Tally

end QuboProbe
