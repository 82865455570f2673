/-
  QuboProbe.Decimal.Reading

  The binary number of a literal, by scaling: the digits that fit into 64 bits
  are rounded to a float and then multiplied or divided once by a power of ten.
  That is the exact number rounded once when the digits fit into 53 bits and
  the power is at most `10^22`, and the nearest or a neighbour of it otherwise.
-/
import QuboProbe.Binary64

namespace QuboProbe

namespace Numeral

/-- Digits taken so far, with the power of ten that they are to be scaled by. -/
structure Significand where
  value : Nat
  exponent : Int
  /-- A digit before the point did not fit any more. -/
  full : Bool

def fits (s : Significand) (c : Char) : Bool :=
  decide (10 * s.value + digitValue c ≤ 18446744073709551615)

/-- A digit before the point: once one does not fit, the rest only count as places. -/
def Significand.pushWhole (s : Significand) (c : Char) : Significand :=
  if !s.full && fits s c then { s with value := 10 * s.value + digitValue c }
  else { s with exponent := s.exponent + 1, full := true }

/-- Digits after the point: the first that does not fit and all after it are dropped. -/
def Significand.pushFraction (s : Significand) : List Char → Significand
  | [] => s
  | c :: rest =>
    if fits s c then
      pushFraction { s with value := 10 * s.value + digitValue c, exponent := s.exponent - 1 } rest
    else s

def significand (n : Numeral) : Significand :=
  (n.whole.foldl Significand.pushWhole ⟨0, 0, false⟩).pushFraction n.fraction

/-- The float `10^k`. -/
def powerOfTen (k : Nat) : Float := Float.ofScientific 1 false k

/-- A float scaled by a power of ten; none when the result is infinite. -/
def scale : Nat → Float → Int → Option Float
  | 0, f, _ => some f
  | fuel + 1, f, e =>
    if e.natAbs ≤ 308 then
      if 0 ≤ e then
        let r := f * powerOfTen e.natAbs
        if r.isInf then none else some r
      else some (f / powerOfTen e.natAbs)
    else if f == 0 then some f
    else if 0 ≤ e then none
    else scale fuel (f / powerOfTen 308) (e + 308)

/-- The magnitude of a literal. An exponent beyond 32 bits makes zero, or nothing at all. -/
def magnitude? (n : Numeral) : Option Float :=
  let s := n.significand
  let e := n.exponent.getD 0
  if 2147483647 < e.natAbs then
    if 0 ≤ e && s.value != 0 then none else some 0
  else scale 4 s.value.toUInt64.toFloat (s.exponent + e)

/-- The binary number of a literal; none when it is too large. -/
def toBinary64? (n : Numeral) : Option Binary64 :=
  n.magnitude?.map fun f =>
    let x := Binary64.ofFloat f
    if n.negative then -x else x

end Numeral

end QuboProbe
