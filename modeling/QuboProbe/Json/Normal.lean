/-
  QuboProbe.Json.Normal

  The normal form of a value that is kept without a type of its own: integers
  of 64 bits stay integers, every other number becomes a float, and the
  members of an object are sorted by name, the last of several with one name
  counting.
-/
import QuboProbe.Json.Shape
import Std.Data.TreeMap

namespace QuboProbe.Json

/-- A number in normal form; none when it is too large for a float. -/
def normalNumber? (n : Numeral) : Option Json :=
  match n.integer? with
  | some i =>
    if -9223372036854775808 ≤ i ∧ i ≤ 18446744073709551615 then some (ofInt i)
    else n.toBinary64?.map ofBinary64
  | none => n.toBinary64?.map ofBinary64

/-- Members by name. -/
def ofMap (members : Std.TreeMap String Json) : Json := record members.toList

mutual

/-- The normal form of a value with at most so many arrays and objects inside one another. -/
def normal? (depth : Nat) : Json → Option Json
  | .null => some .null
  | .bool b => some (.bool b)
  | .number n => normalNumber? n
  | .string s => s.map ofString
  | .array items =>
    match depth with
    | 0 => none
    | depth + 1 => (normalItems? depth items).map .array
  | .object members =>
    match depth with
    | 0 => none
    | depth + 1 => (normalMembers? depth members ∅).map ofMap

def normalItems? (depth : Nat) : List Json → Option (List Json)
  | [] => some []
  | v :: rest =>
    match v.normal? depth with
    | none => none
    | some v => (normalItems? depth rest).map (v :: ·)

/-- The members in normal form, added to those before them. -/
def normalMembers? (depth : Nat) : List (Option String × Json) → Std.TreeMap String Json →
    Option (Std.TreeMap String Json)
  | [], found => some found
  | (none, _) :: _, _ => none
  | (some k, v) :: rest, found =>
    match v.normal? depth with
    | none => none
    | some v => normalMembers? depth rest (found.insert k v)

end

end QuboProbe.Json
