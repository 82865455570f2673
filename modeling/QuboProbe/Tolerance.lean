/-
  QuboProbe.Tolerance

  When the value of an objective and the energy of a model count as equal.
-/
import QuboProbe.Scalar

namespace QuboProbe

inductive Tolerance (α : Type) where
  /-- The same number. -/
  | exact
  /-- Within an absolute or a relative distance. -/
  | approx (epsilon maxRelative : α)
  /-- The same number if both are exact integers, and within the usual slack otherwise. -/
  | auto

instance {α : Type} [BEq α] : BEq (Tolerance α) where
  beq
    | .exact, .exact => true
    | .approx e r, .approx e' r' => e == e' && r == r'
    | .auto, .auto => true
    | _, _ => false

variable {α : Type} [Sub α] [Mul α] [BEq α] [Scalar α]

/-- Equal, or finite and at most `epsilon` apart, or at most the share `maxRelative` of the larger
magnitude apart.  Of equal magnitudes the first counts as the larger. -/
def relativelyEqual (a b epsilon maxRelative : α) : Bool :=
  if a == b then true
  else if Scalar.isInfinite a || Scalar.isInfinite b then false
  else
    let distance := Scalar.magnitude (a - b)
    if Scalar.atMost distance epsilon then true
    else
      let largest :=
        if Scalar.less (Scalar.magnitude a) (Scalar.magnitude b) then Scalar.magnitude b
        else Scalar.magnitude a
      Scalar.atMost distance (largest * maxRelative)

def Tolerance.accepts (t : Tolerance α) (expected actual : α) : Bool :=
  match t with
  | .exact => expected == actual
  | .approx epsilon maxRelative => relativelyEqual expected actual epsilon maxRelative
  | .auto =>
    if Scalar.isExactInteger expected && Scalar.isExactInteger actual then expected == actual
    else relativelyEqual expected actual Scalar.slack Scalar.slack

/-! ## From strict to lenient -/

variable {a b : α}

theorem relativelyEqual_of_beq (h : (a == b) = true) (epsilon maxRelative : α) :
    relativelyEqual a b epsilon maxRelative = true := by
  rw [relativelyEqual, if_pos h]

namespace Tolerance

/-- What is the same number is accepted by every tolerance. -/
theorem accepts_of_exact (h : exact.accepts a b = true) (t : Tolerance α) :
    t.accepts a b = true := by
  have heq : (a == b) = true := h
  cases t with
  | exact => exact h
  | approx epsilon maxRelative => exact relativelyEqual_of_beq heq epsilon maxRelative
  | auto =>
    rw [accepts]
    split
    · exact heq
    · exact relativelyEqual_of_beq heq Scalar.slack Scalar.slack

theorem accepts_auto (ha : Scalar.isExactInteger a = true) (hb : Scalar.isExactInteger b = true) :
    auto.accepts a b = exact.accepts a b := by
  rw [accepts, accepts, ha, hb, Bool.and_self, if_pos rfl]

end Tolerance

end QuboProbe
