/-
  QuboProbe.Encoding.OffsetBinary

  Signed integers in offset binary: width `w` holds `[-2^(w-1), 2^(w-1))`,
  stored as the value plus `2^(w-1)`; width 0 holds zero alone.  The value is
  affine in its bits, so a quadratic objective stays quadratic.
-/
import QuboProbe.Encoding.Basic

namespace QuboProbe.Encoding

/-- What is added to a value to store it. -/
def bias : Nat → Nat
  | 0 => 0
  | w + 1 => Nat.pow 2 w

/-- The end of the domain. -/
def upper : Nat → Nat
  | 0 => 1
  | w + 1 => Nat.pow 2 w

def offsetBinaryWidth (width : Nat) : Except CodingError Unit :=
  if maxWidth < width then .error (.width "int" width (.atMost maxWidth)) else .ok ()

def offsetBinaryEncode (value : Value) (width : Nat) : Except CodingError (List UInt8) := do
  match value with
  | .vector _ => .error (.domain "int" (.wantsInt value.kind))
  | .int v =>
    offsetBinaryWidth width
    let low : Int := -(bias width : Int)
    if v.toInt < low ∨ (upper width : Int) ≤ v.toInt then
      .error (.domain "int" (.outside v.toInt low (upper width)))
    else inDomain "uint" (writeField (v.toInt + bias width) width)

def offsetBinary : Encoding where
  name := "int"
  describe := "SignedInt"
  checkWidth := offsetBinaryWidth
  encode := offsetBinaryEncode
  decode bits := .int (Int64.ofInt ((Field.toNat bits : Int) - bias bits.length))

end QuboProbe.Encoding
