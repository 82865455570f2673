/-
  QuboProbe.Json.Reader

  Reading a text of the exchange format.  Blanks may stand around every token
  and nothing may follow the value.  `Json.parse` bounds its recursion by the
  length of the text: every call consumes a character.
-/
import QuboProbe.Json.Basic

namespace QuboProbe.Json

/-! ## Blanks and numbers -/

def isBlank (c : Char) : Bool := c == ' ' || c == '\n' || c == '\t' || c == '\r'

def skipBlank (cs : List Char) : List Char := cs.dropWhile isBlank

/-- A run of digits and what follows it. -/
def digits (cs : List Char) : List Char × List Char :=
  (cs.takeWhile Char.isDigit, cs.dropWhile Char.isDigit)

/-- The digits before the point: a zero alone, or a run that starts otherwise. -/
def whole? : List Char → Option (List Char × List Char)
  | '0' :: rest => some (['0'], rest)
  | c :: rest => if c.isDigit then some (digits (c :: rest)) else none
  | [] => none

/-- The digits after a point; without a point there are none. -/
def fraction? : List Char → Option (List Char × List Char)
  | '.' :: rest =>
    match digits rest with
    | ([], _) => none
    | found => some found
  | cs => some ([], cs)

/-- The sign and digits of an exponent. -/
def exponentDigits? (negative : Bool) (cs : List Char) : Option (Option Int × List Char) :=
  match digits cs with
  | ([], _) => none
  | (ds, rest) =>
    let e : Int := valueOfDigits ds
    some (some (if negative then -e else e), rest)

def exponent? : List Char → Option (Option Int × List Char)
  | c :: rest =>
    if c = 'e' ∨ c = 'E' then
      match rest with
      | '+' :: ds => exponentDigits? false ds
      | '-' :: ds => exponentDigits? true ds
      | ds => exponentDigits? false ds
    else some (none, c :: rest)
  | [] => some (none, [])

/-- A number literal and what follows it. -/
def numeral? (cs : List Char) : Option (Numeral × List Char) := do
  let (negative, cs) := match cs with
    | '-' :: rest => (true, rest)
    | cs => (false, cs)
  let (whole, cs) ← whole? cs
  let (fraction, cs) ← fraction? cs
  let (exponent, cs) ← exponent? cs
  return (⟨negative, whole, fraction, exponent⟩, cs)

/-- A text after its opening quote. -/
def quoted? (cs : List Char) : Option (Option String × List Char) :=
  (Quoted.pieces cs).map fun (ps, rest) => ((Quoted.join ps).map String.ofList, rest)

/-! ## Values -/

mutual

/-- One value and what follows it. -/
def value? : Nat → List Char → Option (Json × List Char)
  | 0, _ => none
  | n + 1, cs =>
    match skipBlank cs with
    | 'n' :: 'u' :: 'l' :: 'l' :: rest => some (.null, rest)
    | 't' :: 'r' :: 'u' :: 'e' :: rest => some (.bool true, rest)
    | 'f' :: 'a' :: 'l' :: 's' :: 'e' :: rest => some (.bool false, rest)
    | '\"' :: rest => (quoted? rest).map fun (s, rest) => (.string s, rest)
    | '[' :: rest =>
      match skipBlank rest with
      | ']' :: rest => some (.array [], rest)
      | cs => (items? n cs).map fun (vs, rest) => (.array vs, rest)
    | '{' :: rest =>
      match skipBlank rest with
      | '}' :: rest => some (.object [], rest)
      | cs => (members? n cs).map fun (ms, rest) => (.object ms, rest)
    | cs => (numeral? cs).map fun (x, rest) => (.number x, rest)

/-- The items of an array up to its end; there is at least one. -/
def items? : Nat → List Char → Option (List Json × List Char)
  | 0, _ => none
  | n + 1, cs =>
    match value? n cs with
    | none => none
    | some (v, rest) =>
      match skipBlank rest with
      | ',' :: rest => (items? n rest).map fun (vs, rest) => (v :: vs, rest)
      | ']' :: rest => some ([v], rest)
      | _ => none

/-- The members of an object up to its end; there is at least one. -/
def members? : Nat → List Char → Option (List (Option String × Json) × List Char)
  | 0, _ => none
  | n + 1, cs =>
    match skipBlank cs with
    | '\"' :: rest =>
      match quoted? rest with
      | none => none
      | some (k, rest) =>
        match skipBlank rest with
        | ':' :: rest =>
          match value? n rest with
          | none => none
          | some (v, rest) =>
            match skipBlank rest with
            | ',' :: rest => (members? n rest).map fun (ms, rest) => ((k, v) :: ms, rest)
            | '}' :: rest => some ([(k, v)], rest)
            | _ => none
        | _ => none
    | _ => none

end

/-- The value of a text, if the text is one. -/
def parse (s : String) : Option Json :=
  let cs := s.toList
  match value? (cs.length + 1) cs with
  | some (v, rest) => if skipBlank rest = [] then some v else none
  | none => none

end QuboProbe.Json
