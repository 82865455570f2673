/-
  QuboProbe.Event

  What a compilation or a validation reports while it runs, and the record of
  a run: its result, the bit strings that it evaluated and its events.
-/
import QuboProbe.Failure
import QuboProbe.Memo.Tally

namespace QuboProbe

/-- Bits on which the objective and the model differ. -/
structure Mismatch (α : Type) where
  bits : BitString
  expected : α
  actual : α

inductive Event (α : Type) where
  /-- A compilation of so many bits begins, with so many probes. -/
  | compiling (bits probes : Nat)
  | compiled (tally : Tally)
  | refuted (mismatch : Mismatch α)
  /-- A validation has passed so many bit strings. -/
  | confirmed (checked : Nat)

inductive Level where
  | debug
  | warning
deriving DecidableEq

def Level.text : Level → String
  | .debug => "DEBUG"
  | .warning => "WARN"

namespace Event

variable {α : Type}

def level : Event α → Level
  | .compiling _ _ => .debug
  | .compiled _ => .debug
  | .refuted _ => .warning
  | .confirmed _ => .debug

def message [Scalar α] : Event α → String
  | .compiling bits probes => s!"QUBO 컴파일 시작: {bits}비트, 프로브 {probes}개"
  | .compiled t =>
    s!"QUBO 컴파일 완료: 평가 {t.misses}회, 캐시 적중 {t.hits}회 (적중률 " ++ t.percentText ++ "%)"
  | .refuted m =>
    "2차 검증 실패: " ++ m.bits.text ++ " 에서 목적 함수 " ++ Scalar.text m.expected ++
      " != 에너지 " ++ Scalar.text m.actual
  | .confirmed checked => s!"2차 검증 통과: 벡터 {checked}개"

/-- The event as a line of a log. -/
def line [Scalar α] (e : Event α) : String := e.level.text ++ " " ++ e.message

end Event

/-- The record of a run. -/
structure Run (α β : Type) where
  result : β
  /-- The bit strings that were evaluated, in order. -/
  evaluated : List BitString
  events : List (Event α)

end QuboProbe
