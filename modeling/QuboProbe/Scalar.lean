/-
  QuboProbe.Scalar

  What the library asks of the numbers it computes with, beyond `+`, `-` and
  `·`: magnitudes, comparisons, which values are usable and how one is
  written.  Two kinds of numbers have it: binary floating point
  (`QuboProbe.Binary64`) and the rationals (`QuboProbe.Exact`), whose
  arithmetic is exact.
-/

namespace QuboProbe

/-- The measuring side of a number type. -/
class Scalar (α : Type) where
  /-- Half of a value. -/
  half : α → α
  /-- The magnitude of a value. -/
  magnitude : α → α
  /-- Strictly smaller. -/
  less : α → α → Bool
  /-- Smaller or equal. -/
  atMost : α → α → Bool
  /-- A real number, neither infinite nor undefined. -/
  isFinite : α → Bool
  isInfinite : α → Bool
  /-- A whole number small enough that its neighbours are whole too (below `2^52`). -/
  isExactInteger : α → Bool
  /-- The slack granted when no tolerance is given, `10^-9`. -/
  slack : α
  /-- A total order on all values. -/
  rank : α → α → Ordering
  /-- A value in a message. -/
  text : α → String

end QuboProbe
