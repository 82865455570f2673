/-
  QuboProbe.Binary64

  Binary floating point of 64 bits, held as its bit pattern so that the sign
  and payload of an undefined value (NaN) are part of it: the total order by
  which samples are ranked can tell them apart.

  Arithmetic on numbers is the rounding arithmetic of `Float`.  When an operand
  is undefined the result is the first such operand, made quiet, but in a sum
  the last one: what is added to a running total decides.  An invalid operation
  on numbers gives the default undefined value, whose sign is set.
-/
import QuboProbe.Scalar
import QuboProbe.Decimal.Dyadic

namespace QuboProbe

structure Binary64 where
  bits : UInt64
deriving DecidableEq, Inhabited

namespace Binary64

/-! ## Fields of the bit pattern -/

/-- The bit pattern without its sign. -/
def unsigned (x : Binary64) : UInt64 := x.bits &&& 0x7fffffffffffffff

def isNegative (x : Binary64) : Bool := x.bits != x.unsigned

def isNaN (x : Binary64) : Bool := decide (0x7ff0000000000000 < x.unsigned)

def isInfinite (x : Binary64) : Bool := x.unsigned == 0x7ff0000000000000

def isFinite (x : Binary64) : Bool := decide (x.unsigned < 0x7ff0000000000000)

/-- The leading bit of a significand, `2^52`. -/
def leadingBit : Nat := 4503599627370496

/-- The biased exponent and the trailing significand. -/
def fields (x : Binary64) : Nat × Nat :=
  (x.unsigned.toNat / leadingBit, x.unsigned.toNat % leadingBit)

/-- The magnitude of a finite number as a dyadic number. -/
def dyadic (x : Binary64) : Dyadic :=
  match x.fields with
  | (0, f) => ⟨f, -1074, false⟩
  | (e + 1, f) => ⟨f + leadingBit, (e : Int) - 1074, f == 0 && e != 0⟩

/-! ## Arithmetic -/

def toFloat (x : Binary64) : Float := Float.ofBits x.bits

/-- The undefined value that an invalid operation gives. -/
def invalid : Binary64 := ⟨0xfff8000000000000⟩

/-- A float that is the result of an operation on numbers. -/
def ofFloat (f : Float) : Binary64 := if f.isNaN then invalid else ⟨f.toBits⟩

/-- An undefined value with its quiet bit set. -/
def quiet (x : Binary64) : Binary64 := ⟨x.bits ||| 0x0008000000000000⟩

/-- An operation on floats, extended to undefined operands. -/
@[inline] def lift₂ (op : Float → Float → Float) (x y : Binary64) : Binary64 :=
  if x.isNaN then x.quiet else if y.isNaN then y.quiet else ofFloat (op x.toFloat y.toFloat)

instance : Zero Binary64 := ⟨⟨0⟩⟩
instance : One Binary64 := ⟨⟨0x3ff0000000000000⟩⟩
instance : Add Binary64 := ⟨fun total x => lift₂ (· + ·) x total⟩
instance : Sub Binary64 := ⟨lift₂ (· - ·)⟩
instance : Mul Binary64 := ⟨lift₂ (· * ·)⟩
instance : Div Binary64 := ⟨lift₂ (· / ·)⟩

/-- Negation flips the sign bit, of undefined values too. -/
instance : Neg Binary64 := ⟨fun x => ⟨x.bits ^^^ 0x8000000000000000⟩⟩

/-- Equality of numbers: an undefined value equals nothing, the two zeros are equal. -/
instance : BEq Binary64 := ⟨fun x y => x.toFloat == y.toFloat⟩

def less (x y : Binary64) : Bool := decide (x.toFloat < y.toFloat)

def atMost (x y : Binary64) : Bool := decide (x.toFloat ≤ y.toFloat)

def magnitude (x : Binary64) : Binary64 := ⟨x.unsigned⟩

def ofInt64 (i : Int64) : Binary64 := ofFloat i.toFloat

def ofUInt64 (n : UInt64) : Binary64 := ofFloat n.toFloat

/-- Whole and below `2^52` in magnitude. -/
def isExactInteger (x : Binary64) : Bool :=
  decide (x.unsigned < 0x4330000000000000) &&
    (let d := x.dyadic
     decide (0 ≤ d.exponent) || d.mantissa % Nat.pow 2 (-d.exponent).toNat == 0)

/-! ## Total order -/

/-- The place of a bit pattern in the total order: negative values come before the positive, the
larger magnitude first, so that `-NaN < -∞ < … < -0 < +0 < … < ∞ < NaN`. -/
def place (x : Binary64) : Int :=
  if x.isNegative then -(x.unsigned.toNat : Int) - 1 else x.unsigned.toNat

def rank (x y : Binary64) : Ordering := compare x.place y.place

/-! ## Text -/

/-- The literal of a finite number with the fewest digits that read back. -/
def numeral (style : Style) (tie : Tie) (x : Binary64) : Numeral :=
  (x.dyadic.shortest tie).numeral style x.isNegative

/-- Neighbouring numbers are written with as few digits as tell them apart. -/
example : (numeral .exchange .even ⟨0x3fd3333333333333⟩).chars = "0.3".toList ∧
    (numeral .exchange .even ⟨0x3fd3333333333334⟩).chars = "0.30000000000000004".toList := by
  decide +kernel

/-- Exchanged texts turn scientific at `10^16`, and the smallest number has one digit. -/
example : (numeral .exchange .even ⟨0x430c6bf526340000⟩).chars = "1000000000000000.0".toList ∧
    (numeral .exchange .even ⟨0x4341c37937e08000⟩).chars = "1e+16".toList ∧
    (numeral .exchange .even ⟨1⟩).chars = "5e-324".toList := by decide +kernel

/-- A number in a message: shortest digits, written out in full. -/
def text (x : Binary64) : String :=
  if x.isNaN then "NaN"
  else if x.isInfinite then (if x.isNegative then "-inf" else "inf")
  else (x.numeral .plain .up).text

example : (numeral .plain .up ⟨0x444b1ae4d6e2ef50⟩).chars = "1000000000000000000000".toList ∧
    (numeral .plain .up ⟨0x8000000000000000⟩).chars = "-0".toList := by decide +kernel

/-- A finite number with a fixed number of places. -/
def fixedText (places : Nat) (x : Binary64) : String :=
  if x.isFinite then (x.dyadic.fixed places x.isNegative).text else x.text

/-- A quarter lies between two tenths and goes to the even one. -/
example : ((⟨0x3fd0000000000000⟩ : Binary64).dyadic.fixed 1 false).chars = "0.2".toList := by
  decide +kernel

end Binary64

instance Binary64.instScalar : Scalar Binary64 where
  half x := x / ⟨0x4000000000000000⟩
  magnitude := Binary64.magnitude
  less := Binary64.less
  atMost := Binary64.atMost
  isFinite := Binary64.isFinite
  isInfinite := Binary64.isInfinite
  isExactInteger := Binary64.isExactInteger
  slack := ⟨0x3e112e0be826d695⟩
  rank := Binary64.rank
  text := Binary64.text

end QuboProbe
