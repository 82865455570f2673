/-
  QuboProbe.Exchange.Models

  Tables, models and terms in the exchange format.  A table has a version, its
  two dimensions and its entries row after row.
-/
import QuboProbe.Json.Shape
import QuboProbe.Qubo

namespace QuboProbe

namespace Matrix

/-- The only version there is. -/
def formatVersion : UInt8 := 1

def toJson (m : Matrix Binary64) : Json :=
  .record [("v", .ofNat formatVersion.toNat), ("dim", .array [.ofNat m.rows, .ofNat m.cols]),
    ("data", .ofList .ofBinary64 m.data.toList)]

def dimensions? (v : Json) : Option (Nat × Nat) :=
  match v.items with
  | some [rows, cols] =>
    match rows.index?, cols.index? with
    | some rows, some cols => some (rows, cols)
    | _, _ => none
  | _ => none

def entries? (v : Json) : Option (List Binary64) := v.list? Json.float?

/-- The dimensions that are not zero must have a product of at most 63 bits. -/
def sizeFits (rows cols : Nat) : Bool := decide (max rows 1 * max cols 1 < 9223372036854775808)

/-- A table of fields that have been read. -/
def ofFields? (version dimensions entries : Json) : Option (Matrix Binary64) := do
  let version ← version.byte?
  let (rows, cols) ← dimensions? dimensions
  let entries ← entries? entries
  if version = formatVersion ∧ sizeFits rows cols then ofList? rows cols entries else none

/-- Whether a member is a well-formed field; a table has no others. -/
def isField : Option String × Json → Bool
  | (some "v", v) => v.byte? == some formatVersion
  | (some "dim", v) => (dimensions? v).isSome
  | (some "data", v) => (entries? v).isSome
  | _ => false

/-- Of several fields of one name the last counts, but every one must be well formed. -/
def ofJson? : Json → Option (Matrix Binary64)
  | .array [version, dimensions, entries] => ofFields? version dimensions entries
  | .object members =>
    if members.all isField then
      match (Json.named "v" members).getLast?, (Json.named "dim" members).getLast?,
        (Json.named "data" members).getLast? with
      | some version, some dimensions, some entries => ofFields? version dimensions entries
      | _, _, _ => none
    else none
  | _ => none

end Matrix

namespace Qubo

def toJson (q : Qubo Binary64) : Json :=
  .record [("matrix", q.matrix.toJson), ("offset", .ofBinary64 q.offset)]

/-- The model as it is written: the table need not be square, nor zero below the diagonal. -/
def ofJson? (v : Json) : Option (Qubo Binary64) :=
  match v.fields? ["matrix", "offset"] with
  | some [matrix, offset] =>
    match Matrix.ofJson? matrix, offset.float? with
    | some matrix, some offset => some ⟨matrix, offset⟩
    | _, _ => none
  | _ => none

end Qubo

namespace Term

def toJson (t : Term Binary64) : Json :=
  .record [("i", .ofNat t.i), ("j", .ofNat t.j), ("coefficient", .ofBinary64 t.coefficient)]

def ofJson? (v : Json) : Option (Term Binary64) :=
  match v.fields? ["i", "j", "coefficient"] with
  | some [i, j, coefficient] =>
    match i.index?, j.index?, coefficient.float? with
    | some i, some j, some coefficient => some ⟨i, j, coefficient⟩
    | _, _, _ => none
  | _ => none

end Term

end QuboProbe
