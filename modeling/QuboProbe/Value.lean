/-
  QuboProbe.Value

  The values that variables take: one integer of 64 bits, or a list of them.
-/
import QuboProbe.Decimal.Numeral

namespace QuboProbe

inductive Value where
  | int (v : Int64)
  | vector (vs : List Int64)
deriving DecidableEq, Inhabited

namespace Value

def int? : Value → Option Int64
  | .int v => some v
  | .vector _ => none

def vector? : Value → Option (List Int64)
  | .int _ => none
  | .vector vs => some vs

/-- The name of a value's kind in messages. -/
def kind : Value → String
  | .int _ => "int"
  | .vector _ => "vector"

def wordText (v : Int64) : String := String.ofList (integerText v.toInt)

def listText (vs : List Int64) : String := "[" ++ ", ".intercalate (vs.map wordText) ++ "]"

/-- A value alone. -/
def text : Value → String
  | .int v => wordText v
  | .vector vs => listText vs

/-- A value with its kind. -/
def describe : Value → String
  | .int v => "Int(" ++ wordText v ++ ")"
  | .vector vs => "Vector(" ++ listText vs ++ ")"

end Value

end QuboProbe
