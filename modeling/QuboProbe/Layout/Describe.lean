/-
  QuboProbe.Layout.Describe

  A layout as text, on one line or indented.
-/
import QuboProbe.Layout.Basic
import QuboProbe.Text.Literal

namespace QuboProbe

/-- The fields of a description, with their values. -/
def Variable.described (v : Variable) : List (String × String) :=
  [("name", Text.literal v.name), ("scheme", Text.literal v.encoding.name),
    ("width", toString v.width), ("offset", toString v.offset)]

namespace Layout

def openBrace : String := "\x7b"

def closeBrace : String := "\x7d"

/-- Fields between braces, on one line. -/
def inline (title : String) (fields : List (String × String)) : String :=
  title ++ " " ++ openBrace ++ " " ++ ", ".intercalate (fields.map fun f => f.1 ++ ": " ++ f.2) ++
    " " ++ closeBrace

/-- Fields between braces, one on a line, each line after a margin. -/
def block (title margin : String) (fields : List (String × String)) : String :=
  title ++ " " ++ openBrace ++ "\n" ++
    String.join (fields.map fun f => margin ++ "    " ++ f.1 ++ ": " ++ f.2 ++ ",\n") ++
    margin ++ closeBrace

/-- A layout on one line. -/
def describe (l : Layout) : String :=
  inline "SearchSpace"
    [("variables",
        "[" ++ ", ".intercalate (l.vars.map fun v => inline "VariableSpec" v.described) ++ "]"),
      ("size", toString l.size)]

/-- The variables of a layout, indented; none are written as a pair of brackets. -/
def variablesBlock : List Variable → String
  | [] => "[]"
  | vs =>
    "[\n" ++
      String.join (vs.map fun v =>
        "        " ++ block "VariableSpec" "        " v.described ++ ",\n") ++ "    ]"

/-- A layout with every field and every variable on lines of their own. -/
def describeIndented (l : Layout) : String :=
  block "SearchSpace" "" [("variables", variablesBlock l.vars), ("size", toString l.size)]

end Layout

end QuboProbe
