/-
  QuboProbe.Json.Basic

  The exchange format: trees of values and their compact text.  Numbers keep
  their literal, since how much of it counts depends on who reads it.
-/
import QuboProbe.Decimal.Numeral
import QuboProbe.Json.Quoted

namespace QuboProbe

/-- A value of the exchange format.  A text is `none` when its escapes name no text. -/
inductive Json where
  | null
  | bool (b : Bool)
  | number (n : Numeral)
  | string (s : Option String)
  | array (items : List Json)
  | object (members : List (Option String × Json))
deriving Inhabited

namespace Json

/-! ## Building -/

def ofInt (i : Int) : Json := .number (.ofInt i)

def ofNat (n : Nat) : Json := ofInt n

def ofString (s : String) : Json := .string (some s)

/-- An object with the members in the given order. -/
def record (members : List (String × Json)) : Json :=
  .object (members.map fun (k, v) => (some k, v))

/-! ## Compact text -/

/-- A quoted text. -/
def quoted (s : Option String) : List Char :=
  '\"' :: Quoted.encode ((s.getD "").toList) ++ ['\"']

mutual

def chars : Json → List Char
  | .null => ['n', 'u', 'l', 'l']
  | .bool true => ['t', 'r', 'u', 'e']
  | .bool false => ['f', 'a', 'l', 's', 'e']
  | .number n => n.chars
  | .string s => quoted s
  | .array items => '[' :: itemsChars items ++ [']']
  | .object members => '{' :: membersChars members ++ ['}']

def itemsChars : List Json → List Char
  | [] => []
  | [v] => v.chars
  | v :: w :: rest => v.chars ++ ',' :: itemsChars (w :: rest)

def membersChars : List (Option String × Json) → List Char
  | [] => []
  | [(k, v)] => quoted k ++ ':' :: v.chars
  | (k, v) :: m :: rest => quoted k ++ ':' :: v.chars ++ ',' :: membersChars (m :: rest)

end

/-- The compact text of a value. -/
def text (v : Json) : String := String.ofList v.chars

end Json

end QuboProbe
