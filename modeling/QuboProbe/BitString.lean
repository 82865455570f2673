/-
  QuboProbe.BitString

  Bit strings: the candidates that layouts, objectives and models exchange.
  A position is set when its byte is not zero; `BitString.ofBytes` brings every
  byte to 0 or 1, and strings read from outside keep theirs.

  `Field.ofNat` and `Field.toNat` are the binary digits of a number, least
  significant first.
-/
import Std.Data.TreeMap
import QuboProbe.Capacity

namespace QuboProbe

/-! ## Binary fields -/

namespace Field

/-- The low `width` binary digits of a number, least significant first. -/
def ofNat : Nat → Nat → List UInt8
  | 0, _ => []
  | width + 1, n => (if n % 2 = 0 then 0 else 1) :: ofNat width (n / 2)

/-- The number whose binary digits are the lowest bits of the bytes. -/
def toNat : List UInt8 → Nat
  | [] => 0
  | b :: rest => b.toNat % 2 + 2 * toNat rest

@[simp] theorem length_ofNat (width n : Nat) : (ofNat width n).length = width := by
  induction width generalizing n with
  | zero => rfl
  | succ w ih => simp [ofNat, ih]

theorem toNat_ofNat (width n : Nat) : toNat (ofNat width n) = n % Nat.pow 2 width := by
  induction width generalizing n with
  | zero => simp [ofNat, toNat, Nat.mod_one]
  | succ w ih =>
    have hp : Nat.pow 2 (w + 1) = 2 * Nat.pow 2 w := by simp [Nat.pow_succ, Nat.mul_comm]
    rw [ofNat, toNat, ih, hp, Nat.mod_mul]
    split <;> simp <;> omega

theorem toNat_lt (bits : List UInt8) : toNat bits < Nat.pow 2 bits.length := by
  induction bits with
  | nil => simp [toNat]
  | cons b rest ih =>
    have hp : Nat.pow 2 (rest.length + 1) = 2 * Nat.pow 2 rest.length := by
      simp [Nat.pow_succ, Nat.mul_comm]
    simp only [toNat, List.length_cons, hp]
    omega

end Field

/-! ## Bit strings -/

structure BitString where
  bytes : List UInt8
deriving DecidableEq, Inhabited

namespace BitString

/-- The bit string of some bytes, in which every byte that is not zero becomes one. -/
def ofBytes (bytes : List UInt8) : BitString := ⟨bytes.map fun b => if b = 0 then 0 else 1⟩

def length (x : BitString) : Nat := x.bytes.length

/-- All positions clear. -/
def zeros (n : Nat) : BitString := ⟨List.replicate n 0⟩

/-- Position `i` set. -/
def unit (n i : Nat) : BitString := ⟨(List.replicate n 0).set i 1⟩

/-- Positions `i` and `j` set. -/
def pair (n i j : Nat) : BitString := ⟨((List.replicate n 0).set i 1).set j 1⟩

/-- The low `n` binary digits of an index, least significant first. -/
def ofIndex (n index : Nat) : BitString := ⟨Field.ofNat n index⟩

/-- Whether a string of `n` bits can be held. -/
def fits (n : Nat) : Bool := Capacity.holds Capacity.bitSize n

/-- `zeros`, for a string that can be held. -/
def zeros? (n : Nat) : Option BitString := if fits n then some (zeros n) else none

/-- `unit`, for a position that the string has. -/
def unit? (n i : Nat) : Option BitString :=
  if fits n ∧ i < n then some (unit n i) else none

/-- `pair`, for positions that the string has. -/
def pair? (n i j : Nat) : Option BitString :=
  if fits n ∧ i < n ∧ j < n then some (pair n i j) else none

/-- `ofIndex`, for a string that can be held. -/
def ofIndex? (n index : Nat) : Option BitString := if fits n then some (ofIndex n index) else none

/-- How many bytes are one. -/
def ones (x : BitString) : Nat := x.bytes.countP (· == 1)

/-- The positions that are set, in order. -/
def active (x : List UInt8) : List Nat :=
  (x.zipIdx.filter fun b => b.1 != 0).map Prod.snd

/-- Every byte in decimal, between brackets. -/
def text (x : BitString) : String :=
  "[" ++ String.join (x.bytes.map fun b => toString b.toNat) ++ "]"

@[simp] theorem length_zeros (n : Nat) : (zeros n).length = n := by simp [zeros, length]

@[simp] theorem length_unit (n i : Nat) : (unit n i).length = n := by simp [unit, length]

@[simp] theorem length_pair (n i j : Nat) : (pair n i j).length = n := by simp [pair, length]

@[simp] theorem length_ofIndex (n i : Nat) : (ofIndex n i).length = n := by simp [ofIndex, length]

theorem mem_active {x : List UInt8} {i : Nat} : i ∈ active x ↔ ∃ b, x[i]? = some b ∧ b ≠ 0 := by
  simp [active, List.mem_zipIdx_iff_getElem?]

/-- The positions are listed once each, in ascending order. -/
theorem pairwise_active (x : List UInt8) : (active x).Pairwise (· < ·) := by
  have h : (x.zipIdx.map Prod.snd).Pairwise (· < ·) := by
    rw [List.zipIdx_map_snd]
    exact List.pairwise_lt_range'
  rw [List.pairwise_map] at h
  exact (h.filter _).map _ fun _ _ => id

/-! ## Order -/

/-- The lexicographic order of the bytes; a string comes after its beginnings. -/
instance : Ord BitString := ⟨fun x y => compare x.bytes y.bytes⟩

theorem compare_def (x y : BitString) : compare x y = compare x.bytes y.bytes := rfl

instance : Std.TransOrd BitString where
  eq_swap := by intro x y; exact Std.OrientedOrd.eq_swap (a := x.bytes) (b := y.bytes)
  isLE_trans := by
    intro x y z hxy hyz
    exact Std.TransOrd.isLE_trans (a := x.bytes) (b := y.bytes) (c := z.bytes) hxy hyz

instance : Std.LawfulEqOrd BitString where
  eq_of_compare := by
    intro x y h
    have := Std.LawfulEqOrd.eq_of_compare (a := x.bytes) (b := y.bytes) h
    cases x; cases y; simp_all

end BitString

end QuboProbe
