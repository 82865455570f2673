/-
  QuboProbe.Decimal.Numeral

  Number literals as they are written: a sign, whole digits, an optional
  fraction and an optional power of ten.  `Numeral.text` writes one, and
  `Decimal.numeral` lays out a decimal `d · 10^k` in one of two styles:

    * `Style.plain`     — always positional, no point on whole numbers;
    * `Style.exchange`  — positional with a point for scientific exponents
      from -5 to 15, scientific beyond.
-/

namespace QuboProbe

/-! ## Digits -/

/-- The decimal digits of a natural number, most significant first. -/
def digitsOf (n : Nat) : List Char := Nat.toDigits 10 n

/-- The value of a digit character; other characters count as zero. -/
def digitValue (c : Char) : Nat := if c.isDigit then c.toNat - 48 else 0

/-- The value of a run of digits, most significant first. -/
def valueOfDigits (cs : List Char) : Nat := cs.foldl (fun n c => 10 * n + digitValue c) 0

@[simp] theorem valueOfDigits_nil : valueOfDigits [] = 0 := rfl

theorem valueOfDigits_append_singleton (cs : List Char) (c : Char) :
    valueOfDigits (cs ++ [c]) = 10 * valueOfDigits cs + digitValue c := by
  simp [valueOfDigits, List.foldl_append]

/-- The text of an integer: a minus sign when negative, then its digits. -/
def integerText (i : Int) : List Char :=
  if i < 0 then '-' :: digitsOf i.natAbs else digitsOf i.natAbs

/-! ## Numerals -/

/-- A number literal.  An empty `fraction` means that no point is written. -/
structure Numeral where
  negative : Bool
  whole : List Char
  fraction : List Char
  exponent : Option Int
deriving DecidableEq, Inhabited

namespace Numeral

/-- The literal of an integer. -/
def ofInt (i : Int) : Numeral := ⟨decide (i < 0), digitsOf i.natAbs, [], none⟩

/-- An exponent is written with its sign, `+` included. -/
def exponentText : Option Int → List Char
  | none => []
  | some e => 'e' :: (if e < 0 then '-' else '+') :: digitsOf e.natAbs

/-- The literal as text. -/
def chars (n : Numeral) : List Char :=
  (if n.negative then ['-'] else []) ++ n.whole ++
    (if n.fraction = [] then [] else '.' :: n.fraction) ++ exponentText n.exponent

def text (n : Numeral) : String := String.ofList n.chars

/-- The integer that a literal without point and exponent denotes.  `-0` denotes none: a sign on
zero only has a meaning for a fractional number. -/
def integer? (n : Numeral) : Option Int :=
  if n.fraction = [] ∧ n.exponent = none then
    let v := valueOfDigits n.whole
    if n.negative then (if v = 0 then none else some (-(v : Int))) else some v
  else none

end Numeral

/-! ## Layouts -/

/-- A non-negative decimal `digits · 10^exponent`. -/
structure Decimal where
  digits : Nat
  exponent : Int
deriving DecidableEq, Inhabited

/-- How a decimal is laid out. -/
structure Style where
  /-- Least and greatest scientific exponent written positionally; `none` means all of them. -/
  positional : Option (Int × Int)
  /-- Whether a whole number keeps a point and a zero. -/
  keepPoint : Bool
deriving DecidableEq

/-- Messages write numbers out in full, and whole numbers without a point. -/
def Style.plain : Style := ⟨none, false⟩

/-- Exchanged texts keep a point and turn scientific below `10^-5` and from `10^16` on. -/
def Style.exchange : Style := ⟨some (-5, 15), true⟩

namespace Decimal

/-- The exponent of the scientific form: one digit stands before the point. -/
def scientific (d : Decimal) : Int := ((digitsOf d.digits).length : Int) - 1 + d.exponent

/-- Positional layout: the digits with the point at its place, padded with zeros. -/
def positional (keepPoint negative : Bool) (d : Decimal) : Numeral :=
  let ds := digitsOf d.digits
  if 0 ≤ d.exponent then
    ⟨negative, ds ++ List.replicate d.exponent.toNat '0', if keepPoint then ['0'] else [], none⟩
  else
    let places := (-d.exponent).toNat
    if places < ds.length then
      ⟨negative, ds.take (ds.length - places), ds.drop (ds.length - places), none⟩
    else ⟨negative, ['0'], List.replicate (places - ds.length) '0' ++ ds, none⟩

/-- The literal of a signed decimal in a style. -/
def numeral (style : Style) (negative : Bool) (d : Decimal) : Numeral :=
  let e := d.scientific
  let inside : Bool := match style.positional with
    | none => true
    | some (low, high) => decide (low ≤ e) && decide (e ≤ high)
  if inside then d.positional style.keepPoint negative
  else
    match digitsOf d.digits with
    | [] => ⟨negative, ['0'], [], some e⟩
    | c :: rest => ⟨negative, [c], rest, some e⟩

end Decimal

end QuboProbe
