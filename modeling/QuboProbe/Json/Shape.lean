/-
  QuboProbe.Json.Shape

  The shapes in which typed data stand in the exchange format:

    * a record is an object with each field once, in any order, other members
      being ignored, or an array of exactly its fields in order;
    * a variant is an object with the variant's name as its only member, or,
      when it carries nothing, the name alone;
    * an integer field needs an integer literal in its range, a float field
      takes any number that is not too large.
-/
import QuboProbe.Json.Reader
import QuboProbe.Decimal.Reading

namespace QuboProbe.Json

/-! ## Leaves -/

def bool? : Json → Option Bool
  | .bool b => some b
  | _ => none

def string? : Json → Option String
  | .string s => s
  | _ => none

def int? : Json → Option Int
  | .number n => n.integer?
  | _ => none

/-- A natural number below a bound. -/
def natBelow? (bound : Nat) (v : Json) : Option Nat :=
  match v.int? with
  | some i => if 0 ≤ i ∧ i < bound then some i.toNat else none
  | none => none

/-- A count or index: 64 bits. -/
def index? (v : Json) : Option Nat := v.natBelow? 18446744073709551616

def uint64? (v : Json) : Option UInt64 := v.index?.map Nat.toUInt64

def byte? (v : Json) : Option UInt8 := (v.natBelow? 256).map Nat.toUInt8

def int64? (v : Json) : Option Int64 :=
  match v.int? with
  | some i =>
    if -9223372036854775808 ≤ i ∧ i ≤ 9223372036854775807 then some (Int64.ofInt i) else none
  | none => none

def float? : Json → Option Binary64
  | .number n => n.toBinary64?
  | _ => none

/-- A float as written: the fewest digits that read back; what is not finite is `null`. -/
def ofBinary64 (x : Binary64) : Json :=
  if x.isFinite then .number (x.numeral .exchange .even) else .null

/-! ## Lists, records and variants -/

def items : Json → Option (List Json)
  | .array vs => some vs
  | _ => none

/-- A list of which every item has the same shape. -/
def list? {β : Type} (item : Json → Option β) (v : Json) : Option (List β) :=
  match v.items with
  | some vs => vs.mapM item
  | none => none

def ofList {β : Type} (item : β → Json) (xs : List β) : Json := .array (xs.map item)

/-- The values of the members with a name. -/
def named (name : String) (members : List (Option String × Json)) : List Json :=
  (members.filter fun m => m.1 == some name).map Prod.snd

/-- The fields of a record, in the order asked for. -/
def fields? (names : List String) : Json → Option (List Json)
  | .array vs => if vs.length = names.length then some vs else none
  | .object members =>
    if members.all (fun m => m.1.isSome) then
      names.mapM fun name =>
        match named name members with
        | [v] => some v
        | _ => none
    else none
  | _ => none

/-- A variant's name and what it carries. -/
def variant? : Json → Option (String × Option Json)
  | .string (some s) => some (s, none)
  | .object [(some s, v)] => some (s, some v)
  | _ => none

end QuboProbe.Json
