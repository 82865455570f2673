/-
  QuboProbe.Exchange.Values

  Values, bit strings and valuations in the exchange format.
-/
import QuboProbe.BitString
import QuboProbe.Json.Shape
import QuboProbe.Valuation

namespace QuboProbe

namespace Value

def toJson : Value → Json
  | .int v => .record [("Int", .ofInt v.toInt)]
  | .vector vs => .record [("Vector", .ofList (fun v => .ofInt v.toInt) vs)]

def ofJson? (v : Json) : Option Value :=
  match v.variant? with
  | some ("Int", some body) => body.int64?.map .int
  | some ("Vector", some body) => (body.list? Json.int64?).map .vector
  | _ => none

end Value

namespace BitString

/-- The bytes as they are. -/
def toJson (x : BitString) : Json := .ofList (fun b => .ofNat b.toNat) x.bytes

def ofJson? (v : Json) : Option BitString := (v.list? Json.byte?).map BitString.mk

end BitString

namespace Valuation

/-- A name with its value. -/
def bindingToJson (b : String × Value) : Json := .array [.ofString b.1, b.2.toJson]

def bindingOfJson? (v : Json) : Option (String × Value) :=
  match v.items with
  | some [name, value] =>
    match name.string?, Value.ofJson? value with
    | some name, some value => some (name, value)
    | _, _ => none
  | _ => none

def toJson (a : Valuation) : Json := .record [("entries", .ofList bindingToJson a.entries)]

/-- The entries in their order, also those of a name that is bound already. -/
def ofJson? (v : Json) : Option Valuation :=
  match v.fields? ["entries"] with
  | some [entries] => (entries.list? bindingOfJson?).map Valuation.mk
  | _ => none

end Valuation

end QuboProbe
