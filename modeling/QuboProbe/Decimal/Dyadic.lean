/-
  QuboProbe.Decimal.Dyadic

  Decimals of the dyadic numbers `mantissa · 2^exponent` that binary formats
  hold, in exact integer arithmetic:

    * `Dyadic.shortest` — the shortest decimal that rounds back to the number,
      the nearest one of that length, ties by rule;
    * `Dyadic.fixed`    — a fixed number of places, a half going to the even
      neighbour.
-/
import QuboProbe.Decimal.Numeral

namespace QuboProbe

/-- Which neighbour a tie goes to. -/
inductive Tie where
  | up
  | even
deriving DecidableEq

/-- The quotient `num / den` rounded to the nearest integer. -/
def roundDiv (tie : Tie) (num den : Nat) : Nat :=
  let q := num / den
  let r := num % den
  if 2 * r < den then q
  else if den < 2 * r then q + 1
  else match tie with
    | .up => q + 1
    | .even => if q % 2 = 0 then q else q + 1

/-- A non-negative dyadic number with the shape of its rounding interval. -/
structure Dyadic where
  mantissa : Nat
  exponent : Int
  /-- Whether the next smaller number of the format lies at half the distance of the next larger. -/
  lowerGapHalved : Bool
deriving DecidableEq

namespace Dyadic

/-- Numerator and denominator of `n · 2^e · 10^-k`. -/
def scaled (n : Nat) (e k : Int) : Nat × Nat :=
  (n * Nat.pow 2 e.toNat * Nat.pow 10 (-k).toNat, Nat.pow 2 (-e).toNat * Nat.pow 10 k.toNat)

/-- The decimals `c · 10^k` that round back to the number are those with
`low ≤ 4c·unit ≤ high`, the ends included when the mantissa is even. -/
def roundsBack (d : Dyadic) (k : Int) (c : Nat) : Bool :=
  let below := if d.lowerGapHalved then 1 else 2
  let (low, unit) := scaled (4 * d.mantissa - below) (d.exponent - 2) k
  let (high, _) := scaled (4 * d.mantissa + 2) (d.exponent - 2) k
  if d.mantissa % 2 = 0 then decide (low ≤ c * unit) && decide (c * unit ≤ high)
  else decide (low < c * unit) && decide (c * unit < high)

/-- On the grid `10^k`, the point nearest to the number among those that round back to it. -/
def gridPoint? (tie : Tie) (d : Dyadic) (k : Int) : Option Nat :=
  let (num, den) := scaled d.mantissa d.exponent k
  let below := num / den
  let above := below + 1
  match decide (0 < below) && d.roundsBack k below, d.roundsBack k above with
  | true, true => some (roundDiv tie num den)
  | true, false => some below
  | false, true => some above
  | false, false => none

/-- A power of ten above the number. -/
def topGrid (d : Dyadic) : Int :=
  ((Nat.log2 d.mantissa : Int) + 1 + d.exponent) * 30103 / 100000 + 2

/-- The first grid with a point, walking from coarse to fine. -/
def search (tie : Tie) (d : Dyadic) : Nat → Int → Decimal
  | 0, k => ⟨(scaled d.mantissa d.exponent k).1 / (scaled d.mantissa d.exponent k).2, k⟩
  | fuel + 1, k =>
    match d.gridPoint? tie k with
    | some c => ⟨c, k⟩
    | none => search tie d fuel (k - 1)

/-- The shortest decimal that rounds back to the number, nearest among those of its length.
Seventeen digits always suffice for a 53-bit mantissa, so the walk ends well inside its bound. -/
def shortest (tie : Tie) (d : Dyadic) : Decimal :=
  if d.mantissa = 0 then ⟨0, 0⟩ else search tie d 32 d.topGrid

/-- The number with a fixed number of decimal places, a half going to the even neighbour. -/
def fixed (places : Nat) (negative : Bool) (d : Dyadic) : Numeral :=
  let (num, den) := scaled d.mantissa d.exponent (-(places : Int))
  let digits := digitsOf (roundDiv .even num den)
  let padded := List.replicate (places + 1 - digits.length) '0' ++ digits
  ⟨negative, padded.take (padded.length - places), padded.drop (padded.length - places), none⟩

end Dyadic

end QuboProbe
