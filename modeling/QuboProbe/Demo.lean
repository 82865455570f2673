/-
  QuboProbe.Demo

  Two worked examples: a weighted sum of two integers, and a small portfolio
  that balances variance, return and a budget.
-/
import QuboProbe.Binary64
import QuboProbe.Compile
import QuboProbe.Encoding.Packed
import QuboProbe.Encoding.Unsigned
import QuboProbe.Text.Literal
import QuboProbe.Validate

namespace QuboProbe.Demo

/-! ## Printing -/

def rowText (row : List Binary64) : String :=
  "[" ++ ", ".intercalate (row.map (Binary64.fixedText 1)) ++ "]"

/-- A table with one decimal place. -/
def matrixText (m : Matrix Binary64) : String :=
  "[" ++ ",\n ".intercalate (m.rowLists.map rowText) ++ "]"

def modelLines (q : Qubo Binary64) : List String :=
  [s!"QUBO 행렬 ({q.size}x{q.size}):", matrixText q.matrix, "QUBO 오프셋: " ++ q.offset.text]

/-- The bindings in the order of their names. -/
def bindingsText (a : Valuation) : String :=
  "\x7b" ++ ", ".intercalate (a.toMap.toList.map fun b => Text.literal b.1 ++ ": " ++ b.2.describe)
    ++ "\x7d"

/-! ## Computing -/

abbrev Step (β : Type) := Except (Failure CodingError Binary64) β

def coding {β : Type} : Except CodingError β → Step β := Except.mapError .coding

def scored {β : Type} : Except DimensionError β → Step β := Except.mapError .dimension

/-! ## A weighted sum -/

def sumVariables : List (String × Encoding × Nat) := [("a", .unsigned, 3), ("b", .unsigned, 3)]

/-- Twice the first and three times the second. -/
def weightedSum : Objective CodingError Binary64 := fun args => do
  let a ← args.int "a"
  let b ← args.int "b"
  return .ofInt64 (2 * a + 3 * b)

def linearLines (s : Settings Binary64) : Step (List String) := do
  let layout ← coding (Layout.ofList sumVariables)
  let c ← (compile s weightedSum layout).result
  let x ← coding (layout.encode (.ofList [("a", .int 3), ("b", .int 6)]))
  let args ← coding (layout.decode x.bytes)
  let energy ← scored (c.qubo.energy x.bytes)
  let value ← coding (weightedSum args)
  return modelLines c.qubo ++
    ["x = " ++ x.text, "decode(x) = " ++ bindingsText args, "energy(x) = " ++ energy.text,
      "f(3, 6)   = " ++ value.text]

/-! ## A portfolio -/

def budget : Int64 := 10

def means : List Int64 := [5, 7, 3]

def covariance : List (List Int64) := [[4, 1, 0], [1, 6, 2], [0, 2, 3]]

def dot (xs ys : List Int64) : Int64 := (List.zipWith (· * ·) xs ys).foldl (· + ·) 0

def variance (weights : List Int64) : Int64 :=
  dot weights (covariance.map fun row => dot row weights)

def expectedReturn (weights : List Int64) : Int64 := dot weights means

/-- The square of what the weights are off the budget. -/
def offBudget (weights : List Int64) : Int64 :=
  let total := weights.foldl (· + ·) 0
  (total - budget) * (total - budget)

/-- Low variance and high return, with a heavy penalty off the budget. -/
def portfolio : Objective CodingError Binary64 := fun args => do
  let x ← args.vector "x"
  return .ofInt64 (variance x - expectedReturn x + 100 * offBudget x)

def portfolioLines (s : Settings Binary64) : Step (List String) := do
  let layout ← coding (Layout.ofList [("x", .packed 3 3, 9)])
  let c ← (compile s portfolio layout).result
  let quadratic ← isQuadratic s portfolio c.qubo layout none
  let x ← coding (layout.encode (.ofList [("x", .vector [3, 4, 3])]))
  let args ← coding (layout.decode x.bytes)
  let weights ← coding (args.vector "x")
  let energy ← scored (c.qubo.energy x.bytes)
  return (if quadratic then "✅ QUBO 생성 성공"
      else "❌ QUBO 생성 실패 - 목적 함수가 2차가 아닙니다") ::
    modelLines c.qubo ++
    ["x=" ++ Value.listText weights ++ ", energy=" ++ energy.text ++
      ", obj=" ++ Value.wordText (variance weights - expectedReturn weights) ++
      ", constraint=" ++ Value.wordText (offBudget weights)]

end QuboProbe.Demo
