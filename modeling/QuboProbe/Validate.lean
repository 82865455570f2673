/-
  QuboProbe.Validate

  Whether a model gives the values of an objective.  The probes are tried
  first, then bit strings of the caller's, or all bit strings when they are
  few, or random ones.  The first difference or failure ends it.
-/
import QuboProbe.Coins
import QuboProbe.Event
import QuboProbe.Memo.Script
import QuboProbe.Probes
import QuboProbe.PseudoBoolean
import QuboProbe.Qubo
import QuboProbe.Settings

namespace QuboProbe

structure Report (α : Type) where
  /-- How many bit strings were compared. -/
  checked : Nat
  mismatch : Option (Mismatch α)

/-- No difference was found. -/
def Report.isQuadratic {α : Type} (r : Report α) : Bool := r.mismatch.isNone

namespace Validate

/-! ## Bit strings to try -/

/-- All bit strings of `n` bits, by index. -/
def everyString (n : Nat) : Supply BitString :=
  .tabulate (BitString.ofIndex n) (Nat.pow 2 n) 0

/-- Whether all bit strings are tried. -/
def isExhaustive {α : Type} (effort : Effort α) (n : Nat) : Bool :=
  decide (n ≤ effort.exhaustiveLimit) && decide (n < 64)

/-- What is tried after the probes, given a source of coins. -/
def further {α σ : Type} (next : σ → Bool × σ) (s : σ) (effort : Effort α) (n : Nat) :
    Option (List BitString) → Supply BitString
  | some samples => .ofList samples
  | none =>
    if isExhaustive effort n then everyString n
    else Coins.draws next n effort.randomSamples s

/-- The bit strings that a validation tries, in order, when its coins come from a source that a
seed starts. -/
def trialsFrom {α σ : Type} (next : σ → Bool × σ) (start : UInt64 → σ) (effort : Effort α) (n : Nat)
    (samples : Option (List BitString)) : Supply BitString :=
  (Probes.supply n).append fun _ => further next (start effort.seed) effort n samples

/-- The bit strings that a validation tries, in order. -/
def trials {α : Type} (effort : Effort α) (n : Nat) (samples : Option (List BitString)) :
    Supply BitString :=
  trialsFrom Coins.Stream.next Coins.ofSeed effort n samples

/-- How many bit strings those are. -/
def trialCount {α : Type} (effort : Effort α) (n : Nat) (samples : Option (List BitString)) : Nat :=
  Probes.count n +
    match samples with
    | some samples => samples.length
    | none => if isExhaustive effort n then Nat.pow 2 n else effort.randomSamples

theorem toList_trialsFrom {α σ : Type} (next : σ → Bool × σ) (start : UInt64 → σ)
    (effort : Effort α) (n : Nat) (samples : Option (List BitString)) :
    (trialsFrom next start effort n samples).toList =
      Probes.vectors n ++ (further next (start effort.seed) effort n samples).toList := by
  rw [trialsFrom, Supply.toList_append, Probes.toList_supply]

theorem toList_trials {α : Type} (effort : Effort α) (n : Nat)
    (samples : Option (List BitString)) :
    (trials effort n samples).toList = Probes.vectors n ++
      (further Coins.Stream.next (Coins.ofSeed effort.seed) effort n samples).toList :=
  toList_trialsFrom Coins.Stream.next Coins.ofSeed effort n samples

/-! ## Comparing -/

variable {ε α : Type} [Zero α] [Add α] [Sub α] [Mul α] [BEq α] [Cause ε] [Scalar α]

/-- Compares a function with a model on bit strings in turn, each only once. -/
def walk (g : PseudoBoolean ε α) (q : Qubo α) (tolerance : Tolerance α) :
    Supply BitString → Nat → Memo α → Except (Failure ε α) (Report α) × Memo α
  | .exhausted, checked, m => (.ok ⟨checked, none⟩, m)
  | .item x rest, checked, m =>
    if (m.get? x).isSome then walk g q tolerance (rest ()) checked m
    else
      match (Script.lookup g.evaluate x).run m with
      | (.error e, m) => (.error e, m)
      | (.ok expected, m) =>
        match q.energy x.bytes with
        | .error e => (.error (.dimension e), m)
        | .ok actual =>
          if tolerance.accepts expected actual then walk g q tolerance (rest ()) (checked + 1) m
          else (.ok ⟨checked + 1, some ⟨x, expected, actual⟩⟩, m)

/-- The event that a report gives rise to. -/
def verdict (r : Report α) : Event α :=
  match r.mismatch with
  | some mismatch => .refuted mismatch
  | none => .confirmed r.checked

/-- Validates a model on the bit strings of a supply.  A model of another size is refused before
anything is evaluated. -/
def along (supply : Supply BitString) (tolerance : Tolerance α) (objective : Objective ε α)
    (q : Qubo α) (layout : Layout) : Run α (Except (Failure ε α) (Report α)) :=
  let n := layout.size
  if q.size ≠ n then
    ⟨.error (.dimension ⟨q.matrix.rows, q.matrix.cols, n⟩), [], []⟩
  else
    let (r, m) := walk ⟨objective, layout⟩ q tolerance supply 0 .empty
    { result := r
      evaluated := m.started.reverse
      events :=
        match r with
        | .ok report => [verdict report]
        | .error _ => [] }

end Validate

variable {ε α : Type} [Zero α] [Add α] [Sub α] [Mul α] [BEq α] [Cause ε] [Scalar α]

/-- Validates a model against an objective over a layout. -/
def validate (s : Settings α) (objective : Objective ε α) (q : Qubo α) (layout : Layout)
    (samples : Option (List BitString)) : Run α (Except (Failure ε α) (Report α)) :=
  Validate.along (Validate.trials s.validation layout.size samples) s.validation.tolerance
    objective q layout

/-- `validate`, unless the model has the right size and the trials or their values cannot be
held. -/
def validate? (s : Settings α) (objective : Objective ε α) (q : Qubo α) (layout : Layout)
    (samples : Option (List BitString)) : Option (Run α (Except (Failure ε α) (Report α))) :=
  let n := layout.size
  if q.size ≠ n ∨ (layout.decodable ∧
      Capacity.holds Capacity.stringSize (Validate.trialCount s.validation n samples)) then
    some (validate s objective q layout samples)
  else none

/-- Whether a validation finds no difference. -/
def isQuadratic (s : Settings α) (objective : Objective ε α) (q : Qubo α) (layout : Layout)
    (samples : Option (List BitString)) : Except (Failure ε α) Bool :=
  (validate s objective q layout samples).result.map Report.isQuadratic

end QuboProbe
