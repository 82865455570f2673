/-
  QuboProbe.Exact

  The rationals as numbers to compute with: the arithmetic is exact, every
  value is finite and the total order is the usual one.
-/
import QuboProbe.Scalar
import Mathlib

namespace QuboProbe

instance Rat.instScalar : Scalar ℚ where
  half x := x / 2
  magnitude x := |x|
  less x y := decide (x < y)
  atMost x y := decide (x ≤ y)
  isFinite _ := true
  isInfinite _ := false
  isExactInteger x := decide (x.den = 1) && decide (|x| < 4503599627370496)
  slack := 1 / 1000000000
  rank x y := compare x y
  text x := if x.den = 1 then toString x.num else toString x.num ++ "/" ++ toString x.den

end QuboProbe
