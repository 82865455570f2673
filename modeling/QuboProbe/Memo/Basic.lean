/-
  QuboProbe.Memo.Basic

  A memo of evaluations: for each bit string at most one outcome, a value or
  the message of a failure, which later look-ups are answered from.

  Look-ups of several workers may overlap, so a look-up is made of small steps
  on the memo: `enter` the key, look at its cell, `start` its evaluation,
  `settle` the outcome, count a `hit` or a `miss`.  `QuboProbe.Memo.Script`
  runs whole look-ups one after another, `QuboProbe.Memo.Pool` those of
  several workers step by step.
-/
import QuboProbe.Failure
import QuboProbe.Memo.Key
import QuboProbe.Memo.Tally

namespace QuboProbe

/-- The state of one key. -/
inductive Cell (α : Type) where
  /-- Nothing is known and nobody is evaluating. -/
  | vacant
  /-- Somebody is evaluating. -/
  | busy
  | settled (outcome : Except String α)

structure Memo (α : Type) where
  cells : Std.TreeMap Memo.Key (Cell α)
  tally : Tally
  /-- The keys whose evaluation was started, newest first. -/
  started : List BitString

namespace Memo

variable {ε α : Type}

def empty : Memo α := ⟨∅, .zero, []⟩

/-! ## What is known -/

/-- The cell of a key. -/
def cell? (m : Memo α) (key : BitString) : Option (Cell α) := m.cells[Key.of key]?

/-- The memo with another cell for a key. -/
def setCell (m : Memo α) (key : BitString) (c : Cell α) : Memo α :=
  { m with cells := m.cells.insert (Key.of key) c }

theorem cell?_setCell (m : Memo α) (key k : BitString) (c : Cell α) :
    (m.setCell key c).cell? k = if k = key then some c else m.cell? k := by
  rw [setCell, cell?, Std.TreeMap.getElem?_insert]
  by_cases h : k = key
  · simp [h, Std.ReflCmp.compare_self]
  · have : compare (Key.of key) (Key.of k) ≠ .eq :=
      fun he => h (Key.of_injective (Std.LawfulEqOrd.eq_of_compare he)).symm
    simp [h, this, cell?]

/-- The outcome of a key whose evaluation is over. -/
def outcome? (m : Memo α) (key : BitString) : Option (Except String α) :=
  match m.cell? key with
  | some (.settled outcome) => some outcome
  | _ => none

/-- The value of a key that was evaluated successfully. -/
def get? (m : Memo α) (key : BitString) : Option α :=
  match m.outcome? key with
  | some (.ok v) => some v
  | _ => none

/-- How many outcomes pass a test. -/
def count (m : Memo α) (test : Except String α → Bool) : Nat :=
  m.cells.toList.countP fun c =>
    match c.2 with
    | .settled outcome => test outcome
    | _ => false

/-- How many keys have a value. -/
def size (m : Memo α) : Nat := m.count fun outcome => outcome.toBool

/-- How many keys have a failure. -/
def failures (m : Memo α) : Nat := m.count fun outcome => !outcome.toBool

/-! ## Steps -/

/-- Gives a key a cell, unless it has one. -/
def enter (m : Memo α) (key : BitString) : Memo α :=
  match m.cell? key with
  | some _ => m
  | none => m.setCell key .vacant

/-- Marks the evaluation of a key as begun. -/
def start (m : Memo α) (key : BitString) : Memo α :=
  { m.setCell key .busy with started := key :: m.started }

/-- What is kept of the result of an evaluation: a value, or the message of a failure. -/
def outcomeOf [Cause ε] [Scalar α] : Except (Failure ε α) α → Except String α
  | .ok v => .ok v
  | .error e => .error e.message

/-- Records the result of an evaluation. -/
def settle [Cause ε] [Scalar α] (m : Memo α) (key : BitString) (r : Except (Failure ε α) α) :
    Memo α :=
  m.setCell key (.settled (outcomeOf r))

def hit (m : Memo α) : Memo α :=
  { m with tally := { m.tally with hits := m.tally.hits + 1 } }

def miss (m : Memo α) : Memo α :=
  { m with tally := { m.tally with misses := m.tally.misses + 1 } }

/-- The answer of a later look-up.  A failure is told again, as a failure on that key. -/
def replay (key : BitString) : Except String α → Except (Failure ε α) α
  | .ok v => .ok v
  | .error message => .error (.objective key (.replayed message))

/-! ## What the steps leave known -/

/-- A cell without an outcome tells nothing. -/
theorem outcome?_enter (m : Memo α) (key k : BitString) :
    (m.enter key).outcome? k = m.outcome? k := by
  unfold enter
  split
  · rfl
  · rename_i hv
    simp only [outcome?, cell?_setCell]
    by_cases h : k = key
    · simp [h, hv]
    · simp [h]

theorem outcome?_start (m : Memo α) (key k : BitString) (hk : m.outcome? key = none) :
    (m.start key).outcome? k = m.outcome? k := by
  have hs : (m.start key).cell? k = if k = key then some .busy else m.cell? k :=
    cell?_setCell m key k .busy
  by_cases h : k = key
  · rw [h, hk]
    rw [h] at hs
    simp [outcome?, hs]
  · simp [outcome?, hs, h]

theorem outcome?_settle [Cause ε] [Scalar α] (m : Memo α) (key k : BitString)
    (r : Except (Failure ε α) α) :
    (m.settle key r).outcome? k = if k = key then some (outcomeOf r) else m.outcome? k := by
  by_cases h : k = key <;> simp [settle, outcome?, cell?_setCell, h]

@[simp] theorem outcome?_hit (m : Memo α) (k : BitString) : m.hit.outcome? k = m.outcome? k := rfl

@[simp] theorem outcome?_miss (m : Memo α) (k : BitString) : m.miss.outcome? k = m.outcome? k := rfl

end Memo

end QuboProbe
