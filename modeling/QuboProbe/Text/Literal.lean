/-
  QuboProbe.Text.Literal

  Text as a quoted literal in descriptions: the quote, the backslash and the
  usual controls by a letter, other characters that cannot be shown alone by
  their code point.
-/
import QuboProbe.Text.Unprintable
import QuboProbe.Text.Extending

namespace QuboProbe.Text

/-- A code point in hexadecimal, between braces. -/
def codePoint (c : Char) : List Char :=
  ['\\', 'u', '{'] ++ Nat.toDigits 16 c.toNat ++ ['}']

def literalChar (c : Char) : List Char :=
  if c = '\"' then ['\\', '\"']
  else if c = '\\' then ['\\', '\\']
  else if c = '\n' then ['\\', 'n']
  else if c = '\r' then ['\\', 'r']
  else if c = '\t' then ['\\', 't']
  else if c.toNat = 0 then ['\\', '0']
  else if isExtending c || !isPrintable c then codePoint c
  else [c]

/-- The literal of a text, quotes included. -/
def literal (s : String) : String :=
  String.ofList ('\"' :: s.toList.flatMap literalChar ++ ['\"'])

end QuboProbe.Text
