/-
  QuboProbe.Exchange.Samples

  Samples and parameters in the exchange format.
-/
import QuboProbe.Exchange.Values
import QuboProbe.Params

namespace QuboProbe

namespace Sample

def toJson (s : Sample Binary64) : Json :=
  .record [("bits", s.bits.toJson), ("energy", .ofBinary64 s.energy)]

def ofJson? (v : Json) : Option (Sample Binary64) :=
  match v.fields? ["bits", "energy"] with
  | some [bits, energy] =>
    match BitString.ofJson? bits, energy.float? with
    | some bits, some energy => some ⟨bits, energy⟩
    | _, _ => none
  | _ => none

end Sample

namespace SampleSet

def toJson (s : SampleSet Binary64) : Json := .record [("samples", .ofList Sample.toJson s.samples)]

/-- The samples in their order, sorted or not. -/
def ofJson? (v : Json) : Option (SampleSet Binary64) :=
  match v.fields? ["samples"] with
  | some [samples] => (samples.list? Sample.ofJson?).map SampleSet.mk
  | _ => none

end SampleSet

namespace Params

def toJson (p : Params) : Json := .record [("entries", .ofMap p.entries)]

/-- How many arrays and objects may stand inside one another in a parameter. -/
def maxDepth : Nat := 125

def ofJson? (v : Json) : Option Params :=
  match v.fields? ["entries"] with
  | some [.object members] => (Json.normalMembers? maxDepth members ∅).map Params.mk
  | _ => none

end Params

end QuboProbe
