/-
  QuboProbe.Layout.Basic

  The layout of named variables in one bit string.  Variables are laid out in
  the order in which they are added, each directly after the one before it.
-/
import QuboProbe.Encoding.Basic
import QuboProbe.Valuation

namespace QuboProbe

/-- A variable with the place of its bit field. -/
structure Variable where
  name : String
  encoding : Encoding
  width : Nat
  /-- Where the field starts. -/
  offset : Nat

namespace Variable

/-- Where the field ends. -/
def stop (v : Variable) : Nat := v.offset + v.width

/-- The field in a bit string. -/
def field (v : Variable) (bits : List UInt8) : List UInt8 := (bits.drop v.offset).take v.width

end Variable

structure Layout where
  vars : List Variable
  /-- The number of bits. -/
  size : Nat

namespace Layout

def empty : Layout := ⟨[], 0⟩

def find? (l : Layout) (name : String) : Option Variable :=
  l.vars.find? fun v => v.name == name

/-- Adds a variable after the others.  A name that is taken is refused before the width is
looked at. -/
def add (l : Layout) (name : String) (encoding : Encoding) (width : Nat) :
    Except CodingError Layout :=
  if (l.find? name).isSome then .error (.duplicateName name)
  else
    match encoding.checkWidth width with
    | .error e => .error e
    | .ok () => .ok ⟨l.vars ++ [⟨name, encoding, width, l.size⟩], l.size + width⟩

/-- `add` in place: both checks come before the first change, and an error leaves the layout as it
stands then. -/
def register (name : String) (encoding : Encoding) (width : Nat) :
    ExceptT CodingError (StateM Layout) Unit := do
  if ((← get).find? name).isSome then throw (.duplicateName name)
  match encoding.checkWidth width with
  | .error e => throw e
  | .ok () =>
    modify fun l => { l with vars := l.vars ++ [⟨name, encoding, width, l.size⟩] }
    modify fun l => { l with size := l.size + width }

/-- The layout of variables added one after another. -/
def ofList (vars : List (String × Encoding × Nat)) : Except CodingError Layout :=
  vars.foldlM (fun l v => l.add v.1 v.2.1 v.2.2) empty

/-! ## Encoding -/

/-- The error of a variable's encoding, its domain faults marked with the variable's name. -/
def named (name : String) : CodingError → CodingError
  | .domain scheme fault => .domain scheme (.variable name fault)
  | e => e

/-- The field of one variable. -/
def encodeField (a : Valuation) (v : Variable) : Except CodingError (List UInt8) :=
  match a.get? v.name with
  | none => .error (.missingVariable v.name)
  | some value =>
    match v.encoding.encode value v.width with
    | .error e => .error (named v.name e)
    | .ok bits => .ok bits

/-- The fields of variables, one after another. -/
def encodeFields (a : Valuation) : List Variable → Except CodingError (List UInt8)
  | [] => .ok []
  | v :: rest =>
    match encodeField a v with
    | .error e => .error e
    | .ok bits =>
      match encodeFields a rest with
      | .error e => .error e
      | .ok more => .ok (bits ++ more)

/-- The bits of a valuation, which must bind every variable and no other name. -/
def encode (l : Layout) (a : Valuation) : Except CodingError BitString :=
  match a.names.find? fun n => (l.find? n).isNone with
  | some n => .error (.unknownVariable n)
  | none =>
    match encodeFields a l.vars with
    | .error e => .error e
    | .ok bits => .ok (.ofBytes bits)

/-- `encode`, if the bits can be held.  A name that is not a variable's is refused before that. -/
def encode? (l : Layout) (a : Valuation) : Option (Except CodingError BitString) :=
  if (a.names.all fun n => (l.find? n).isSome) ∧ ¬ BitString.fits l.size then none
  else some (l.encode a)

/-! ## Decoding -/

/-- The values of bits that are as many as the layout has, in the order of the variables. -/
def decodeValues (l : Layout) (bits : List UInt8) : Except CodingError (List Value) :=
  if bits.length ≠ l.size then .error (.lengthMismatch l.size bits.length)
  else .ok (l.vars.map fun v => v.encoding.decode (v.field bits))

/-- The valuation of bits that are as many as the layout has. -/
def decode (l : Layout) (bits : List UInt8) : Except CodingError Valuation :=
  if bits.length ≠ l.size then .error (.lengthMismatch l.size bits.length)
  else .ok (.ofList (l.vars.map fun v => (v.name, v.encoding.decode (v.field bits))))

/-- `decode`, by its other name. -/
def decodeDict (l : Layout) (bits : List UInt8) : Except CodingError Valuation := l.decode bits

/-- Whether the values of all variables can be held. -/
def decodable (l : Layout) : Bool := l.vars.all fun v => v.encoding.decodable

/-- Whether decoding has an outcome: bits of another number are refused, others need values that
can be held. -/
def canDecode (l : Layout) (bits : List UInt8) : Bool := bits.length != l.size || l.decodable

/-- `decodeValues`, if the values can be held. -/
def decodeValues? (l : Layout) (bits : List UInt8) : Option (Except CodingError (List Value)) :=
  if l.canDecode bits then some (l.decodeValues bits) else none

/-- `decode`, if the values can be held. -/
def decode? (l : Layout) (bits : List UInt8) : Option (Except CodingError Valuation) :=
  if l.canDecode bits then some (l.decode bits) else none

end Layout

end QuboProbe
