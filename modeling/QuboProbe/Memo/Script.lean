/-
  QuboProbe.Memo.Script

  Computations that look up a memo.  The evaluation of a missing key is itself
  such a computation, so look-ups nest.  `Script.run` runs one to its end.
-/
import QuboProbe.Memo.Basic

namespace QuboProbe

inductive Script (ε α : Type) where
  | done (result : Except (Failure ε α) α)
  /-- Looks up a key, with its evaluation, and goes on with the answer. -/
  | ask (key : BitString) (evaluation : Unit → Script ε α)
      (next : Except (Failure ε α) α → Script ε α)

namespace Script

variable {ε α : Type}

/-- Goes on with the value of a computation; a failure ends it. -/
def andThen : Script ε α → (α → Script ε α) → Script ε α
  | done (.ok v), f => f v
  | done (.error e), _ => done (.error e)
  | ask key evaluation next, f => ask key evaluation fun r => (next r).andThen f

/-- A look-up whose evaluation looks up nothing itself. -/
def lookup (evaluate : BitString → Except (Failure ε α) α) (key : BitString) : Script ε α :=
  ask key (fun _ => done (evaluate key)) done

/-- Runs a computation on a memo, where a key that is entered is evaluated at once unless it has an
outcome.  An evaluation may look up any key but those that it is itself an evaluation of. -/
def run [Cause ε] [Scalar α] : Script ε α → Memo α → Except (Failure ε α) α × Memo α
  | done r, m => (r, m)
  | ask key evaluation next, m =>
    match m.outcome? key with
    | some outcome => (next (Memo.replay key outcome)).run m.hit
    | none =>
      let (r, m) := (evaluation ()).run (m.start key)
      (next r).run (m.settle key r).miss

end Script

end QuboProbe
