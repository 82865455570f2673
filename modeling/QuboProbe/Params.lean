/-
  QuboProbe.Params

  Named parameters that are handed to a sampler as they are, and what a
  sampler is.
-/
import QuboProbe.Json.Normal
import QuboProbe.SampleSet

namespace QuboProbe

structure Params where
  entries : Std.TreeMap String Json

namespace Params

def empty : Params := ⟨∅⟩

/-- Sets a parameter, in place of one of that name. -/
def insert (p : Params) (name : String) (value : Json) : Params := ⟨p.entries.insert name value⟩

def get? (p : Params) (name : String) : Option Json := p.entries[name]?

/-- The parameters in the order of their names. -/
def toList (p : Params) : List (String × Json) := p.entries.toList

def isEmpty (p : Params) : Bool := p.entries.isEmpty

end Params

/-- Finds good bit strings of a model, best first. -/
abbrev Sampler (ε α : Type) := Qubo α → Params → Except ε (SampleSet α)

end QuboProbe
