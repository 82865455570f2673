/-
  QuboProbe.Encoding.Unsigned

  Non-negative integers in positional binary, least significant bit first:
  width `w` holds `[0, 2^w)`.
-/
import QuboProbe.Encoding.Basic

namespace QuboProbe.Encoding

def unsignedWidth (width : Nat) : Except CodingError Unit :=
  if maxWidth < width then .error (.width "uint" width (.atMost maxWidth)) else .ok ()

def unsignedEncode (value : Value) (width : Nat) : Except CodingError (List UInt8) := do
  unsignedWidth width
  match value with
  | .int v => inDomain "uint" (writeField v.toInt width)
  | .vector _ => .error (.domain "uint" (.wantsInt value.kind))

def unsigned : Encoding where
  name := "uint"
  describe := "Uint"
  checkWidth := unsignedWidth
  encode := unsignedEncode
  decode bits := .int (Int64.ofInt (Field.toNat bits))

end QuboProbe.Encoding
