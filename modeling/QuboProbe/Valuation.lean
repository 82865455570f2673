/-
  QuboProbe.Valuation

  Values of named variables, in order: what an objective is asked about and
  what a layout encodes.  Built by inserting, a valuation binds each name once;
  one read from outside may bind a name twice, and then the first binding is
  what look-up finds.
-/
import QuboProbe.CodingError
import Std.Data.TreeMap

namespace QuboProbe

structure Valuation where
  entries : List (String × Value)
deriving DecidableEq, Inhabited

namespace Valuation

def empty : Valuation := ⟨[]⟩

/-- Rebinds the first entry of a name, or adds one at the end. -/
def insertEntry (name : String) (value : Value) : List (String × Value) → List (String × Value)
  | [] => [(name, value)]
  | (n, v) :: rest =>
    if n = name then (name, value) :: rest else (n, v) :: insertEntry name value rest

def insert (a : Valuation) (name : String) (value : Value) : Valuation :=
  ⟨insertEntry name value a.entries⟩

/-- The valuation of some bindings, inserted one after another. -/
def ofList (bindings : List (String × Value)) : Valuation :=
  bindings.foldl (fun a b => a.insert b.1 b.2) empty

def get? (a : Valuation) (name : String) : Option Value := a.entries.lookup name

def contains (a : Valuation) (name : String) : Bool := (a.get? name).isSome

def names (a : Valuation) : List String := a.entries.map Prod.fst

def size (a : Valuation) : Nat := a.entries.length

/-- The integer that a name is bound to. -/
def int (a : Valuation) (name : String) : Except CodingError Int64 :=
  match a.get? name with
  | none => .error (.unknownVariable name)
  | some (.int v) => .ok v
  | some v => .error (.domain "int" (.boundTo name v.kind))

/-- The vector that a name is bound to. -/
def vector (a : Valuation) (name : String) : Except CodingError (List Int64) :=
  match a.get? name with
  | none => .error (.unknownVariable name)
  | some (.vector vs) => .ok vs
  | some v => .error (.domain "vector" (.boundTo name v.kind))

/-- The bindings by name, in the order of the names; of two bindings of a name the later one. -/
def toMap (a : Valuation) : Std.TreeMap String Value :=
  a.entries.foldl (fun m b => m.insert b.1 b.2) ∅

/-- Two valuations agree when they have as many entries and the second binds every entry of the
first to its value; the order of the entries does not matter. -/
def agrees (a b : Valuation) : Bool :=
  a.size == b.size && a.entries.all fun e => b.get? e.1 == some e.2

instance : BEq Valuation := ⟨agrees⟩

/-- The bindings as one line. -/
def text (a : Valuation) : String :=
  ";".intercalate (a.entries.map fun e => e.1 ++ "=" ++ e.2.text)

/-! ## Look-up after insertion -/

theorem lookup_insertEntry (name n : String) (value : Value) (entries : List (String × Value)) :
    (insertEntry name value entries).lookup n =
      if n = name then some value else entries.lookup n := by
  induction entries with
  | nil =>
    by_cases h : n = name
    · simp [insertEntry, h]
    · simp [insertEntry, List.lookup_cons, h, beq_false_of_ne h]
  | cons e rest ih =>
    obtain ⟨k, v⟩ := e
    by_cases hk : k = name
    · subst hk
      by_cases h : n = k
      · simp [insertEntry, h]
      · simp [insertEntry, List.lookup_cons, h, beq_false_of_ne h]
    · by_cases h : n = k
      · simp [insertEntry, hk, h]
      · simp [insertEntry, List.lookup_cons, hk, beq_false_of_ne h, ih]

/-- The last value inserted under a name is the one found. -/
theorem get?_insert (a : Valuation) (name n : String) (value : Value) :
    (a.insert name value).get? n = if n = name then some value else a.get? n :=
  lookup_insertEntry name n value a.entries

end Valuation

end QuboProbe
