/-
  QuboProbe.Encoding.Basic

  An encoding turns a value into a bit field of a given width and back.  The
  width is chosen when a variable is laid out, and checked then.  Anyone may
  make an encoding; the library's own are in the modules beside this one.
-/
import QuboProbe.BitString
import QuboProbe.CodingError

namespace QuboProbe

structure Encoding where
  /-- The name in messages and descriptions. -/
  name : String
  /-- The encoding with its parameters. -/
  describe : String
  /-- Whether the encoding takes a width. -/
  checkWidth : Nat → Except CodingError Unit
  /-- The bits of a value, exactly as many as the width. -/
  encode : Value → Nat → Except CodingError (List UInt8)
  /-- The value of bits.  Every field of a width that was accepted has one. -/
  decode : List UInt8 → Value
  /-- How many integers every decoded value has, however few bits it comes from. -/
  reserved : Nat := 0

namespace Encoding

/-- The widest field of one integer. -/
def maxWidth : Nat := 62

/-- The field of a non-negative integer. -/
def writeField (v : Int) (width : Nat) : Except DomainFault (List UInt8) :=
  if v < 0 then .error (.negative v)
  else if Nat.pow 2 width ≤ v.toNat then .error (.tooLarge v width)
  else .ok (Field.ofNat width v.toNat)

/-- Whether decoded values can be held. -/
def decodable (e : Encoding) : Bool := Capacity.holds Capacity.wordSize e.reserved

/-- `decode`, for a value that can be held. -/
def decode? (e : Encoding) (bits : List UInt8) : Option Value :=
  if e.decodable then some (e.decode bits) else none

/-- A fault of one of the library's encodings, named after the encoding. -/
def inDomain {β : Type} (scheme : String) : Except DomainFault β → Except CodingError β
  | .ok b => .ok b
  | .error fault => .error (.domain scheme fault)

end Encoding

end QuboProbe
