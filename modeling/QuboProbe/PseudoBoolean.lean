/-
  QuboProbe.PseudoBoolean

  An objective of named values as a function of bits: the bits are decoded by
  a layout, and the value must be a real number.
-/
import QuboProbe.Failure
import QuboProbe.Layout.Basic

namespace QuboProbe

/-- A function of named values that may fail. -/
abbrev Objective (ε α : Type) := Valuation → Except ε α

structure PseudoBoolean (ε α : Type) where
  objective : Objective ε α
  layout : Layout

namespace PseudoBoolean

variable {ε α : Type}

/-- The number of bits. -/
def arity (g : PseudoBoolean ε α) : Nat := g.layout.size

def evaluate [Scalar α] (g : PseudoBoolean ε α) (x : BitString) : Except (Failure ε α) α :=
  match g.layout.decode x.bytes with
  | .error e => .error (.probe x e)
  | .ok a =>
    match g.objective a with
    | .error e => .error (.objective x (.raised e))
    | .ok v => if Scalar.isFinite v then .ok v else .error (.objective x (.notFinite v))

/-- What the objective is asked when the function is evaluated on some bit strings in turn: those
that do not decode are not asked about. -/
def questions (g : PseudoBoolean ε α) (xs : List BitString) : List Valuation :=
  xs.filterMap fun x => (g.layout.decode x.bytes).toOption

/-- How often the objective is asked then. -/
def askedCount (g : PseudoBoolean ε α) (xs : List BitString) : Nat :=
  xs.countP fun x => x.length == g.arity

theorem length_questions (g : PseudoBoolean ε α) (xs : List BitString) :
    (g.questions xs).length = g.askedCount xs := by
  have decodes (x : BitString) :
      (g.layout.decode x.bytes).toOption.isSome = (x.length == g.arity) := by
    by_cases h : x.bytes.length = g.layout.size <;>
      simp [Layout.decode, arity, BitString.length, h, Except.toOption]
  rw [questions, List.length_filterMap_eq_countP, askedCount]
  simp only [decodes]

end PseudoBoolean

end QuboProbe
