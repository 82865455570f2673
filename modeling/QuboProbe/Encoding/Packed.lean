/-
  QuboProbe.Encoding.Packed

  Vectors of non-negative integers: `count` unsigned fields of one width, one
  after another.
-/
import QuboProbe.Chunks
import QuboProbe.Encoding.Basic

namespace QuboProbe.Encoding

/-- The width of all fields together. -/
def packedTotal (count width : Nat) : Nat := count * width

def packedWidth (count entryWidth width : Nat) : Except CodingError Unit :=
  if maxWidth < entryWidth then .error (.width "uint_vector" entryWidth (.entryAtMost maxWidth))
  else if width ≠ packedTotal count entryWidth then
    .error (.width "uint_vector" width (.product count entryWidth))
  else .ok ()

/-- The fields of the entries from an index on; the first entry out of range is at fault. -/
def packedFields (entryWidth : Nat) : Nat → List Int64 → Except DomainFault (List UInt8)
  | _, [] => .ok []
  | index, v :: rest =>
    match writeField v.toInt entryWidth with
    | .error fault => .error (.entry index fault)
    | .ok field =>
      match packedFields entryWidth (index + 1) rest with
      | .error fault => .error fault
      | .ok fields => .ok (field ++ fields)

def packedEncode (count entryWidth : Nat) (value : Value) (width : Nat) :
    Except CodingError (List UInt8) := do
  packedWidth count entryWidth width
  match value with
  | .int _ => .error (.domain "uint_vector" (.wantsVector value.kind))
  | .vector vs =>
    if vs.length ≠ count then .error (.domain "uint_vector" (.arity count vs.length))
    else inDomain "uint_vector" (packedFields entryWidth 0 vs)

/-- Entries of no bits are zero; otherwise each piece of the field is one entry. -/
def packedDecode (count entryWidth : Nat) (bits : List UInt8) : Value :=
  if entryWidth = 0 then .vector (List.replicate count 0)
  else .vector ((chunks entryWidth bits).map fun b => Int64.ofInt (Field.toNat b))

def packed (count entryWidth : Nat) : Encoding where
  name := "uint_vector"
  describe := "UintVector \x7b count: " ++ toString count ++ ", width: " ++ toString entryWidth ++
    " \x7d"
  checkWidth := packedWidth count entryWidth
  encode := packedEncode count entryWidth
  decode := packedDecode count entryWidth
  reserved := if entryWidth = 0 then count else 0

end QuboProbe.Encoding
