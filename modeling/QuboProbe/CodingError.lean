/-
  QuboProbe.CodingError

  What can go wrong between named values and bits, as causes; the wording of
  each is in its `message`.
-/
import QuboProbe.Value

namespace QuboProbe

/-- Why a value lies outside what an encoding can hold. -/
inductive DomainFault where
  | negative (v : Int)
  | tooLarge (v : Int) (width : Nat)
  | outside (v low high : Int)
  | wantsInt (kind : String)
  | wantsVector (kind : String)
  | arity (wanted given : Nat)
  /-- The fault of one entry of a vector. -/
  | entry (index : Nat) (fault : DomainFault)
  /-- The fault of a named variable. -/
  | variable (name : String) (fault : DomainFault)
  /-- A name bound to a value of another kind. -/
  | boundTo (name kind : String)
  | other (reason : String)
deriving DecidableEq

def DomainFault.message : DomainFault → String
  | .negative v => s!"음수 값 {v}"
  | .tooLarge v width => s!"값 {v}가 2^{width} 이상"
  | .outside v low high => s!"값 {v}가 [{low}, {high}) 밖"
  | .wantsInt kind => s!"정수가 필요하지만 {kind} 값"
  | .wantsVector kind => s!"벡터가 필요하지만 {kind} 값"
  | .arity wanted given => s!"원소 {wanted}개 필요, {given}개 주어짐"
  | .entry index fault => s!"원소 {index}: " ++ fault.message
  | .variable name fault => name ++ ": " ++ fault.message
  | .boundTo name kind => s!"{name}는 {kind} 값"
  | .other reason => reason

/-- Why an encoding does not take a width. -/
inductive WidthFault where
  | atMost (limit : Nat)
  | entryAtMost (limit : Nat)
  | product (count width : Nat)
  | other (reason : String)
deriving DecidableEq

def WidthFault.message : WidthFault → String
  | .atMost limit => s!"최대 {limit}비트"
  | .entryAtMost limit => s!"서브필드 최대 {limit}비트"
  | .product count width => s!"{count} x {width} = {count * width}비트 필요"
  | .other reason => reason

/-- An error of a kind that no encoding of the library raises, as a caller's own encoding may. -/
structure ForeignError where
  /-- What kind of error it is. -/
  kind : String
  message : String
  /-- The texts of the errors beneath, nearest first. -/
  beneath : List String
deriving DecidableEq

/-- A failure to lay out, encode, decode or look up named values. -/
inductive CodingError where
  /-- A value outside the domain of the named encoding. -/
  | domain (scheme : String) (fault : DomainFault)
  /-- A width that the named encoding does not take. -/
  | width (scheme : String) (width : Nat) (fault : WidthFault)
  | duplicateName (name : String)
  | unknownVariable (name : String)
  | missingVariable (name : String)
  | lengthMismatch (expected actual : Nat)
  /-- Any other error, out of a caller's encoding. -/
  | foreign (e : ForeignError)
deriving DecidableEq

def CodingError.message : CodingError → String
  | .domain scheme fault => s!"{scheme} 스킴 도메인 밖의 값: " ++ fault.message
  | .width scheme w fault => s!"{scheme} 스킴은 폭 {w}를 지원하지 않습니다: " ++ fault.message
  | .duplicateName name => "이미 등록된 변수 이름: " ++ name
  | .unknownVariable name => "등록되지 않은 변수: " ++ name
  | .missingVariable name => "할당에서 누락된 변수: " ++ name
  | .lengthMismatch expected actual =>
    s!"비트 벡터 길이 불일치: 기대 {expected}, 실제 {actual}"
  | .foreign e => e.message

/-- The texts of the errors beneath, nearest first. -/
def CodingError.beneath : CodingError → List String
  | .foreign e => e.beneath
  | _ => []

end QuboProbe
