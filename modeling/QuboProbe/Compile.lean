/-
  QuboProbe.Compile

  From an objective to a quadratic model.  With `g` the objective as a function
  of bits, `0` the clear string and `eᵢ` the string of one position:

    offset    = g(0)
    Q[i][i]   = g(eᵢ) - g(0)
    Q[i][j]   = g(eᵢ + eⱼ) - g(eᵢ) - g(eⱼ) + g(0)

  Every value is looked up in one memo, so each probe is evaluated once.  The
  coefficients are computed one after another, or shared out among workers.
-/
import QuboProbe.Chunks
import QuboProbe.Event
import QuboProbe.Memo.Pool
import QuboProbe.Probes
import QuboProbe.PseudoBoolean
import QuboProbe.Qubo
import QuboProbe.Settings

namespace QuboProbe

/-- A place of the table, with `i ≤ j`. -/
abbrev Place := Nat × Nat

structure Compilation (α : Type) where
  qubo : Qubo α
  tally : Tally

/-- How often the objective was evaluated. -/
def Compilation.evaluations {α : Type} (c : Compilation α) : Nat := c.tally.misses

namespace PseudoBoolean

variable {ε α : Type} [Zero α] [Add α] [Sub α] [Cause ε] [Scalar α]

/-- A value of the function, through the memo. -/
def ask (g : PseudoBoolean ε α) (x : BitString) : Script ε α := .lookup g.evaluate x

/-- The coefficient of a place. -/
def coefficient (g : PseudoBoolean ε α) (place : Place) : Script ε α :=
  let n := g.arity
  let (i, j) := place
  (g.ask (.zeros n)).andThen fun zero =>
  (g.ask (.unit n i)).andThen fun gi =>
  if i = j then .done (.ok (gi - zero))
  else
    (g.ask (.unit n j)).andThen fun gj =>
    (g.ask (.pair n i j)).andThen fun gij =>
    .done (.ok (gij - gi - gj + zero))

/-- Coefficients with their places. -/
abbrev Coefficients (α : Type) := List (Place × α)

/-! ## One after another -/

/-- The coefficients of places in turn; the first failure ends it. -/
def inOrder (g : PseudoBoolean ε α) :
    List Place → Memo α → Except (Failure ε α) (Coefficients α) × Memo α
  | [], m => (.ok [], m)
  | place :: rest, m =>
    match (g.coefficient place).run m with
    | (.error e, m) => (.error e, m)
    | (.ok v, m) =>
      match g.inOrder rest m with
      | (.error e, m) => (.error e, m)
      | (.ok vs, m) => (.ok ((place, v) :: vs), m)

/-! ## Shared out -/

/-- Workers with the places that each is to compute. -/
def crew (g : PseudoBoolean ε α) (m : Memo α) (shares : List (List Place)) : Pool Place ε α :=
  .ofQueues m (shares.map fun places => places.map fun place => (place, g.coefficient place))

/-- Neighbouring places go to the same worker, and no worker gets much more than another. -/
def shareOut (workers : Nat) (places : List Place) : List (List Place) :=
  chunks ((places.length + max workers 1 - 1) / max workers 1) places

/-- Steps that suffice for a share when nobody else is at work: a look-up that evaluates takes five
and any other three, a coefficient makes four look-ups, and a job is taken and given back. -/
def enoughSteps (share : List Place) : Nat := 22 * share.length

/-- The coefficients computed by workers, one worker after another. -/
def shared (g : PseudoBoolean ε α) (workers : Nat) (places : List Place) (m : Memo α) :
    Except (Failure ε α) (Coefficients α) × Memo α :=
  let shares := shareOut workers places
  let pool := (g.crew m shares).run (Pool.inTurn (shares.map enoughSteps))
  (pool.collect, pool.memo)

/-! ## Models -/

/-- The model of coefficients; places that are not among them are zero. -/
def assemble (n : Nat) (offset : α) (coefficients : Coefficients α) : Qubo α :=
  ⟨coefficients.foldl (fun q c => q.set c.1.1 c.1.2 c.2) (.zeros n n), offset⟩

/-- The coefficients of all places. -/
def coefficients (g : PseudoBoolean ε α) (s : Settings α) (m : Memo α) :
    Except (Failure ε α) (Coefficients α) × Memo α :=
  let places := Probes.cells g.arity
  if s.parallel ∧ 1 < g.arity then g.shared s.workers places m else g.inOrder places m

/-- The compiled model, and the memo afterwards. -/
def compileWith (g : PseudoBoolean ε α) (s : Settings α) :
    Except (Failure ε α) (Compilation α) × Memo α :=
  match (g.ask (.zeros g.arity)).run .empty with
  | (.error e, m) => (.error e, m)
  | (.ok offset, m) =>
    match g.coefficients s m with
    | (.error e, m) => (.error e, m)
    | (.ok vs, m) => (.ok ⟨assemble g.arity offset vs, m.tally⟩, m)

end PseudoBoolean

variable {ε α : Type} [Zero α] [Add α] [Sub α] [Cause ε] [Scalar α]

/-- Compiles an objective over a layout. -/
def compile (s : Settings α) (objective : Objective ε α) (layout : Layout) :
    Run α (Except (Failure ε α) (Compilation α)) :=
  let (r, m) := PseudoBoolean.compileWith ⟨objective, layout⟩ s
  let begun := Event.compiling layout.size (Probes.count layout.size)
  { result := r
    evaluated := m.started.reverse
    events :=
      match r with
      | .ok c => [begun, .compiled c.tally]
      | .error _ => [begun] }

/-- `compile`, if the values and the table can be held. -/
def compile? (s : Settings α) (objective : Objective ε α) (layout : Layout) :
    Option (Run α (Except (Failure ε α) (Compilation α))) :=
  if layout.decodable ∧ Matrix.fits layout.size layout.size then some (compile s objective layout)
  else none

end QuboProbe
