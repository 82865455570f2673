/-
  QuboProbe.Proofs.Exchange.Values

  Values, bit strings and valuations survive an exchange.  Each shape is read
  back from the tree that it is written as, and the tree from its text
  (`Json.parse_text`), whatever integers, bytes and names there are
  (`exchange_lossless`).
-/
import QuboProbe.Exchange.Values
import QuboProbe.Proofs.Json.Reading
import Mathlib.Data.List.Forall2

namespace QuboProbe

namespace Json

/-- What a text stands for in a shape. -/
def read? {β : Type} (shape : Json → Option β) (s : String) : Option β := (parse s).bind shape

/-- What is read back from its tree is read back from the text of the tree. -/
theorem read?_text {β : Type} {shape : Json → Option β} {v : Json} {x : β} (hv : v.Written)
    (hx : shape v = some x) : read? shape v.text = some x := by
  rw [read?, parse_text hv, Option.bind_some, hx]

/-! ## Shapes of leaves and lists -/

theorem int?_ofInt (i : Int) : (ofInt i).int? = some i := Numeral.integer?_ofInt i

theorem int64?_ofInt (i : Int64) : (ofInt i.toInt).int64? = some i := by
  have hlow : -9223372036854775808 ≤ i.toInt := Int64.le_toInt i
  have hhigh : i.toInt < 9223372036854775808 := Int64.toInt_lt i
  rw [int64?, int?_ofInt]
  show (if -9223372036854775808 ≤ i.toInt ∧ i.toInt ≤ 9223372036854775807 then
    some (Int64.ofInt i.toInt) else none) = some i
  rw [if_pos ⟨hlow, by omega⟩, Int64.ofInt_toInt]

theorem natBelow?_ofNat {bound n : Nat} (hn : n < bound) : (ofNat n).natBelow? bound = some n := by
  rw [natBelow?, ofNat, int?_ofInt]
  show (if 0 ≤ (n : Int) ∧ (n : Int) < bound then some (n : Int).toNat else none) = some n
  rw [if_pos ⟨by omega, by omega⟩, Int.toNat_natCast]

theorem byte?_ofNat (b : UInt8) : (ofNat b.toNat).byte? = some b := by
  rw [byte?, natBelow?_ofNat (UInt8.toNat_lt b), Option.map_some]
  exact congrArg some (UInt8.ofNat_toNat)

/-- A list is read item by item. -/
theorem list?_eq_some_iff {β : Type} {shape : Json → Option β} {v : Json} {xs : List β} :
    v.list? shape = some xs ↔
      ∃ items, v = .array items ∧ List.Forall₂ (fun item x => shape item = some x) items xs := by
  have hitems (items : List Json) (xs : List β) : items.mapM shape = some xs ↔
      List.Forall₂ (fun item x => shape item = some x) items xs := by
    induction items generalizing xs with
    | nil =>
      rw [List.mapM_nil, List.forall₂_nil_left_iff]
      exact ⟨fun h => (Option.some.inj h).symm, fun h => congrArg some h.symm⟩
    | cons item items ih =>
      simp only [List.mapM_cons, List.forall₂_cons_left_iff, ← ih, Option.bind_eq_bind,
        Option.bind_eq_some_iff, Option.pure_def, Option.some.injEq]
      exact ⟨fun ⟨x, hx, xs', hxs', h⟩ => ⟨x, xs', hx, hxs', h.symm⟩,
        fun ⟨x, xs', hx, hxs', h⟩ => ⟨x, hx, xs', hxs', h.symm⟩⟩
  cases v with
  | array items =>
    constructor
    · exact fun h => ⟨items, rfl, (hitems items xs).1 h⟩
    · rintro ⟨_, heq, h⟩
      cases heq
      exact (hitems items xs).2 h
  | _ => exact iff_of_false nofun fun ⟨_, heq, _⟩ => nomatch heq

/-- A list is read back if each of its items is. -/
theorem list?_ofList {β : Type} {shape : Json → Option β} {toItem : β → Json} {xs : List β}
    (h : ∀ x ∈ xs, shape (toItem x) = some x) : (ofList toItem xs).list? shape = some xs :=
  list?_eq_some_iff.2 ⟨xs.map toItem, rfl, List.forall₂_map_left_iff.2 (List.forall₂_same.2 h)⟩

end Json

/-! ## Values -/

namespace Value

theorem ofJson?_toJson (v : Value) : ofJson? v.toJson = some v := by
  cases v with
  | int i =>
    show (Json.ofInt i.toInt).int64?.map Value.int = some (.int i)
    rw [Json.int64?_ofInt, Option.map_some]
  | vector vs =>
    show ((Json.ofList (fun i : Int64 => Json.ofInt i.toInt) vs).list? Json.int64?).map
      Value.vector = some (.vector vs)
    rw [Json.list?_ofList fun i _ => Json.int64?_ofInt i, Option.map_some]

theorem written_toJson (v : Value) : v.toJson.Written := by
  cases v with
  | int i =>
    apply Json.written_record
    simpa using Json.written_ofInt i.toInt
  | vector vs =>
    apply Json.written_record
    simpa using Json.written_ofList fun i _ => Json.written_ofInt i.toInt

end Value

/-! ## Bit strings -/

namespace BitString

theorem ofJson?_toJson (x : BitString) : ofJson? x.toJson = some x := by
  rw [ofJson?, toJson, Json.list?_ofList fun b _ => Json.byte?_ofNat b, Option.map_some]

theorem written_toJson (x : BitString) : x.toJson.Written :=
  Json.written_ofList fun b _ => Json.written_ofNat b.toNat

end BitString

/-! ## Valuations -/

namespace Valuation

theorem bindingOfJson?_bindingToJson (b : String × Value) :
    bindingOfJson? (bindingToJson b) = some b := by
  have hname : (Json.ofString b.1).string? = some b.1 := rfl
  have hitems : (bindingToJson b).items = some [.ofString b.1, b.2.toJson] := rfl
  rw [bindingOfJson?, hitems]
  dsimp only
  rw [hname, Value.ofJson?_toJson]

theorem ofJson?_toJson (a : Valuation) : ofJson? a.toJson = some a := by
  show ((Json.ofList bindingToJson a.entries).list? bindingOfJson?).map Valuation.mk = some a
  rw [Json.list?_ofList fun b _ => bindingOfJson?_bindingToJson b, Option.map_some]

theorem written_toJson (a : Valuation) : a.toJson.Written := by
  apply Json.written_record
  have hentries : (Json.ofList bindingToJson a.entries).Written := by
    apply Json.written_ofList
    intro b _
    refine .array ?_
    simpa using ⟨Json.written_ofString b.1, Value.written_toJson b.2⟩
  simpa using hentries

end Valuation

/-- Exchange loses nothing of values, bit strings and valuations: reading the text that is written
for one gives it back, with every integer of 64 bits, every byte, every name and every entry in its
place, bound once or several times. -/
theorem exchange_lossless :
    (∀ v : Value, Json.read? Value.ofJson? v.toJson.text = some v) ∧
    (∀ x : BitString, Json.read? BitString.ofJson? x.toJson.text = some x) ∧
    ∀ a : Valuation, Json.read? Valuation.ofJson? a.toJson.text = some a :=
  ⟨fun v => Json.read?_text v.written_toJson v.ofJson?_toJson,
    fun x => Json.read?_text x.written_toJson x.ofJson?_toJson,
    fun a => Json.read?_text a.written_toJson a.ofJson?_toJson⟩

end QuboProbe
