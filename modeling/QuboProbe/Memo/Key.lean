/-
  QuboProbe.Memo.Key

  Bit strings as the keys of a memo.  A key carries a code of its bytes, and
  keys are ordered by their codes first: two different keys are told apart
  mostly without a look at their bytes.
-/
import QuboProbe.BitString

namespace QuboProbe.Memo

/-- A number of the bytes that different lists seldom share. -/
def codeOf (bytes : List UInt8) : UInt64 :=
  bytes.foldl (fun code b => (code + b.toUInt64 + 1) * 0x9e3779b97f4a7c15) 0

structure Key where
  code : UInt64
  bits : BitString

namespace Key

/-- The key of a bit string. -/
def of (x : BitString) : Key := ⟨codeOf x.bytes, x⟩

/-- A key tells its bit string. -/
theorem of_injective {x y : BitString} (h : of x = of y) : x = y := congrArg bits h

/-! ## Order -/

instance : Ord Key := ⟨fun j k => (compare j.code k.code).then (compare j.bits k.bits)⟩

theorem compare_def (j k : Key) :
    compare j k = (compare j.code k.code).then (compare j.bits k.bits) := rfl

instance : Std.TransOrd Key :=
  inferInstanceAs (Std.TransCmp (compareLex (compareOn Key.code) (compareOn Key.bits)))

instance : Std.LawfulEqOrd Key where
  eq_of_compare := by
    intro j k h
    rw [compare_def, Ordering.then_eq_eq] at h
    have h' : j.code = k.code ∧ j.bits = k.bits :=
      ⟨Std.LawfulEqOrd.eq_of_compare h.1, Std.LawfulEqOrd.eq_of_compare h.2⟩
    cases j
    cases k
    cases h'.1
    cases h'.2
    rfl

end Key

end QuboProbe.Memo
