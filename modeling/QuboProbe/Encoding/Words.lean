/-
  QuboProbe.Encoding.Words

  The library's encodings computed in words: signed integers of 64 bits, in
  which a sum, a difference or a negation may overflow and a shift must be by
  fewer than 64 places.  A computation that does not keep to that has no
  result.  The checks of an encoding come before the arithmetic that needs
  them, and their order is part of the computation.
-/
import QuboProbe.Encoding.OffsetBinary
import QuboProbe.Encoding.Packed
import QuboProbe.Encoding.Unsigned

namespace QuboProbe

abbrev Word := BitVec 64

namespace Word

def add? (x y : Word) : Option Word := if x.saddOverflow y then none else some (x + y)

def sub? (x y : Word) : Option Word := if x.ssubOverflow y then none else some (x - y)

def neg? (x : Word) : Option Word := if x.negOverflow then none else some (-x)

def shiftLeft? (x : Word) (places : Nat) : Option Word :=
  if places < 64 then some (x <<< places) else none

/-- The shift that keeps the sign. -/
def sshiftRight? (x : Word) (places : Nat) : Option Word :=
  if places < 64 then some (x.sshiftRight places) else none

/-- The shift of an unsigned word. -/
def ushiftRight? (x : Word) (places : Nat) : Option Word :=
  if places < 64 then some (x >>> places) else none

def ofByte (b : UInt8) : Word := b.toBitVec.setWidth 64

def lowByte (x : Word) : UInt8 := ⟨x.setWidth 8⟩

/-- A product of sizes, which are unsigned words. -/
def sizeMul? (m n : Nat) : Option Nat := if m * n < 18446744073709551616 then some (m * n) else none

/-! ## Fields of one integer -/

/-- One bit of the field for each place: what the word, shifted, has in its lowest place. -/
def fieldBits? (v : Word) (width : Nat) : Option (List UInt8) :=
  (List.range width).mapM fun k => (sshiftRight? v k).map fun x => lowByte (x &&& 1)

def writeField? (v : Word) (width : Nat) : Option (Except DomainFault (List UInt8)) :=
  if v.slt 0 then some (.error (.negative v.toInt))
  else
    (ushiftRight? v width).bind fun beyond =>
      if beyond ≠ 0 then some (.error (.tooLarge v.toInt width))
      else (fieldBits? v width).map .ok

/-- The lowest bit of each byte is moved to its place and joined to those before it. -/
def readField? (bits : List UInt8) : Option Word :=
  bits.zipIdx.foldlM (fun acc b => (shiftLeft? (ofByte (b.1 &&& 1)) b.2).map (acc ||| ·)) 0

/-! ## Indices -/

/-- One bit for each place of an index, which has no sign. -/
def indexBits? (index : Word) (n : Nat) : Option (List UInt8) :=
  (List.range n).mapM fun k => (ushiftRight? index k).map fun x => lowByte (x &&& 1)

/-! ## Encodings -/

def toValue (x : Word) : Value := .int (Int64.ofBitVec x)

def unsignedEncode? (value : Value) (width : Nat) :
    Option (Except CodingError (List UInt8)) :=
  match Encoding.unsignedWidth width with
  | .error e => some (.error e)
  | .ok () =>
    match value with
    | .vector _ => some (.error (.domain "uint" (.wantsInt value.kind)))
    | .int v => (writeField? v.toBitVec width).map (Encoding.inDomain "uint")

def unsignedDecode? (bits : List UInt8) : Option Value := (readField? bits).map toValue

def bias? (width : Nat) : Option Word := if width = 0 then some 0 else shiftLeft? 1 (width - 1)

def offsetBinaryEncode? (value : Value) (width : Nat) :
    Option (Except CodingError (List UInt8)) :=
  match value with
  | .vector _ => some (.error (.domain "int" (.wantsInt value.kind)))
  | .int v =>
    match Encoding.offsetBinaryWidth width with
    | .error e => some (.error e)
    | .ok () => do
      let bias ← bias? width
      let low ← neg? bias
      let upper := if width = 0 then 1 else bias
      if v.toBitVec.slt low || upper.sle v.toBitVec then
        some (.error (.domain "int" (.outside v.toInt low.toInt upper.toInt)))
      else do
        let stored ← add? v.toBitVec bias
        (writeField? stored width).map (Encoding.inDomain "uint")

def offsetBinaryDecode? (bits : List UInt8) : Option Value := do
  let stored ← readField? bits
  let bias ← bias? bits.length
  (sub? stored bias).map toValue

def packedWidth? (count entryWidth width : Nat) : Option (Except CodingError Unit) :=
  if Encoding.maxWidth < entryWidth then
    some (.error (.width "uint_vector" entryWidth (.entryAtMost Encoding.maxWidth)))
  else
    (sizeMul? count entryWidth).map fun total =>
      if width ≠ total then .error (.width "uint_vector" width (.product count entryWidth))
      else .ok ()

/-- The fields of the entries from an index on; the first entry out of range is at fault. -/
def packedFields? (entryWidth : Nat) :
    Nat → List Int64 → Option (Except DomainFault (List UInt8))
  | _, [] => some (.ok [])
  | index, v :: rest =>
    (writeField? v.toBitVec entryWidth).bind fun
      | .error fault => some (.error (.entry index fault))
      | .ok field => (packedFields? entryWidth (index + 1) rest).map fun
        | .error fault => .error fault
        | .ok fields => .ok (field ++ fields)

def packedEncode? (count entryWidth : Nat) (value : Value) (width : Nat) :
    Option (Except CodingError (List UInt8)) :=
  (packedWidth? count entryWidth width).bind fun
    | .error e => some (.error e)
    | .ok () =>
      match value with
      | .int _ => some (.error (.domain "uint_vector" (.wantsVector value.kind)))
      | .vector vs =>
        if vs.length ≠ count then some (.error (.domain "uint_vector" (.arity count vs.length)))
        else (packedFields? entryWidth 0 vs).map (Encoding.inDomain "uint_vector")

def packedDecode? (count entryWidth : Nat) (bits : List UInt8) : Option Value :=
  if entryWidth = 0 then some (.vector (List.replicate count 0))
  else
    ((chunks entryWidth bits).mapM fun b => (readField? b).map Int64.ofBitVec).map Value.vector

end Word

end QuboProbe
