/-
  QuboProbe.Exchange.Settings

  Tolerances and settings in the exchange format.
-/
import QuboProbe.Json.Shape
import QuboProbe.Settings

namespace QuboProbe

namespace Tolerance

def toJson : Tolerance Binary64 → Json
  | .exact => .ofString "Exact"
  | .approx epsilon maxRelative =>
    .record [("Approx", .record [("epsilon", .ofBinary64 epsilon),
      ("max_relative", .ofBinary64 maxRelative)])]
  | .auto => .ofString "Auto"

/-- Whether a variant carries nothing. -/
def carriesNothing : Option Json → Bool
  | none => true
  | some .null => true
  | some _ => false

def ofJson? (v : Json) : Option (Tolerance Binary64) :=
  match v.variant? with
  | some ("Exact", body) => if carriesNothing body then some .exact else none
  | some ("Auto", body) => if carriesNothing body then some .auto else none
  | some ("Approx", some body) =>
    match body.fields? ["epsilon", "max_relative"] with
    | some [epsilon, maxRelative] =>
      match epsilon.float?, maxRelative.float? with
      | some epsilon, some maxRelative => some (.approx epsilon maxRelative)
      | _, _ => none
    | _ => none
  | _ => none

end Tolerance

namespace Effort

def toJson (e : Effort Binary64) : Json :=
  .record [("random_samples", .ofNat e.randomSamples), ("seed", .ofNat e.seed.toNat),
    ("exhaustive_limit", .ofNat e.exhaustiveLimit), ("tolerance", e.tolerance.toJson)]

def ofJson? (v : Json) : Option (Effort Binary64) :=
  match v.fields? ["random_samples", "seed", "exhaustive_limit", "tolerance"] with
  | some [randomSamples, seed, exhaustiveLimit, tolerance] =>
    match randomSamples.index?, seed.uint64?, exhaustiveLimit.index?,
      Tolerance.ofJson? tolerance with
    | some randomSamples, some seed, some exhaustiveLimit, some tolerance =>
      some ⟨randomSamples, seed, exhaustiveLimit, tolerance⟩
    | _, _, _, _ => none
  | _ => none

end Effort

namespace Settings

def toJson (s : Settings Binary64) : Json :=
  .record [("parallel", .bool s.parallel), ("num_threads", .ofNat s.workers),
    ("validation", s.validation.toJson)]

def ofJson? (v : Json) : Option (Settings Binary64) :=
  match v.fields? ["parallel", "num_threads", "validation"] with
  | some [parallel, workers, validation] =>
    match parallel.bool?, workers.index?, Effort.ofJson? validation with
    | some parallel, some workers, some validation => some ⟨parallel, workers, validation⟩
    | _, _, _ => none
  | _ => none

end Settings

end QuboProbe
