/-
  QuboProbe.Failure

  What can go wrong when an objective is evaluated on bits or a model is
  scored.  The error that an objective raised is kept as it is; `Cause` says
  how such an error is shown.
-/
import QuboProbe.CodingError
import QuboProbe.Energy
import QuboProbe.Scalar

namespace QuboProbe

/-- Errors that can be shown, with what lies beneath them. -/
class Cause (ε : Type) where
  text : ε → String
  /-- The texts of the errors beneath, nearest first. -/
  beneath : ε → List String

instance : Cause CodingError := ⟨CodingError.message, CodingError.beneath⟩

/-- Why an objective has no value on some bits. -/
inductive Fault (ε α : Type) where
  /-- The objective raised an error. -/
  | raised (e : ε)
  /-- The objective gave a value that is not a real number. -/
  | notFinite (v : α)
  /-- An evaluation with this message had already failed. -/
  | replayed (message : String)

inductive Failure (ε α : Type) where
  | coding (e : CodingError)
  | objective (bits : BitString) (fault : Fault ε α)
  /-- Bits that do not decode. -/
  | probe (bits : BitString) (e : CodingError)
  | dimension (e : DimensionError)

variable {ε α : Type}

def Fault.text [Cause ε] [Scalar α] : Fault ε α → String
  | .raised e => Cause.text e
  | .notFinite v => "유한하지 않은 목적 함수 값 " ++ Scalar.text v
  | .replayed message => "이미 실패한 평가: " ++ message

def Fault.beneath [Cause ε] : Fault ε α → List String
  | .raised e => Cause.beneath e
  | .notFinite _ => []
  | .replayed _ => []

namespace Failure

def message [Cause ε] [Scalar α] : Failure ε α → String
  | .coding e => e.message
  | .objective bits fault => "목적 함수 평가 실패 (비트 " ++ bits.text ++ "): " ++ fault.text
  | .probe bits e => "프로브 " ++ bits.text ++ " 디코딩 실패: " ++ e.message
  | .dimension e => e.message

/-- The texts of the errors beneath a failure, nearest first. -/
def sources [Cause ε] [Scalar α] : Failure ε α → List String
  | .coding e => e.beneath
  | .objective _ fault => fault.text :: fault.beneath
  | .probe _ e => e.message :: e.beneath
  | .dimension _ => []

end Failure

end QuboProbe
