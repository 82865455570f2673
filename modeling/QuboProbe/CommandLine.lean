/-
  QuboProbe.CommandLine

  The command line: which example to run, and with how many workers.  Words
  are taken one after another, and the first that does not fit ends the
  reading.  An option may stand before and after the command, but only once on
  each side.
-/
import QuboProbe.Demo

namespace QuboProbe.CommandLine

/-! ## Words -/

inductive Command where
  | linear
  | portfolio
deriving DecidableEq

/-- What one word of the command line is. -/
inductive Word where
  | serial
  /-- The number of workers, in the word itself or in the next one. -/
  | threads (attached : Option (List Char))
  | version
  /-- Nothing but values may follow. -/
  | separator
  | command (c : Command)
  | other
deriving DecidableEq

/-- What follows `=` in a word, or the word as it is. -/
def afterEquals : List Char → List Char
  | '=' :: cs => cs
  | cs => cs

/-- What follows some leading characters. -/
def after? (start : List Char) (word : List Char) : Option (List Char) :=
  if start.isPrefixOf word then some (word.drop start.length) else none

/-- A word that starts with `-` and one letter. -/
def shortWord (word : List Char) : Word :=
  match after? "-t".toList word, after? "-V".toList word with
  | some [], _ => .threads none
  | some cs, _ => .threads (some (afterEquals cs))
  | none, some _ => .version
  | none, none => .other

def wordOf (s : String) : Word :=
  if s = "--serial" then .serial
  else if s = "--threads" then .threads none
  else if s = "--version" then .version
  else if s = "--" then .separator
  else if s = "linear" then .command .linear
  else if s = "portfolio" then .command .portfolio
  else
    match after? "--threads=".toList s.toList with
    | some cs => .threads (some cs)
    | none => shortWord s.toList

/-- A count of at most 64 bits, with or without a plus sign. -/
def countOf? (cs : List Char) : Option Nat :=
  let ds := match cs with
    | '+' :: rest => rest
    | cs => cs
  if ds ≠ [] ∧ ds.all Char.isDigit ∧ valueOfDigits ds < 18446744073709551616 then
    some (valueOfDigits ds)
  else none

/-! ## Requests -/

structure Options where
  serial : Bool
  threads : Option Nat
deriving DecidableEq

/-- What the words ask for. -/
inductive Request where
  | version
  | run (command : Option Command) (options : Options)
deriving DecidableEq

/-- What has been read: the command, all options, and those on this side of the command. -/
structure Reading where
  command : Option Command
  options : Options
  serialHere : Bool
  threadsHere : Bool

def Reading.start : Reading := ⟨none, ⟨false, none⟩, false, false⟩

def Reading.addSerial (r : Reading) : Option Reading :=
  if r.serialHere then none
  else some { r with options := { r.options with serial := true }, serialHere := true }

def Reading.addThreads (r : Reading) (cs : List Char) : Option Reading :=
  match r.threadsHere, countOf? cs with
  | false, some n =>
    some { r with options := { r.options with threads := some n }, threadsHere := true }
  | _, _ => none

def Reading.addCommand (r : Reading) (c : Command) : Option Reading :=
  match r.command with
  | none => some ⟨some c, r.options, false, false⟩
  | some _ => none

/-- The request of the words from here on; `pending` says that the next word is a number of
workers. -/
def read (pending : Bool) : Reading → List String → Option Request
  | r, [] => if pending then none else some (.run r.command r.options)
  | r, s :: rest =>
    if pending then
      if s.startsWith "-" then none
      else
        match r.addThreads s.toList with
        | none => none
        | some r => read false r rest
    else
      match wordOf s with
      | .serial =>
        match r.addSerial with
        | none => none
        | some r => read false r rest
      | .threads none => read true r rest
      | .threads (some cs) =>
        match r.addThreads cs with
        | none => none
        | some r => read false r rest
      | .version => if r.command.isNone then some .version else none
      | .separator => if rest.isEmpty then some (.run r.command r.options) else none
      | .command c =>
        match r.addCommand c with
        | none => none
        | some r => read false r rest
      | .other => none

/-- The request of a command line. -/
def request? (args : List String) : Option Request := read false .start args

/-! ## Outcomes -/

structure Outcome where
  code : Nat
  stdout : String
deriving DecidableEq

def settings (workers : Nat) (o : Options) : Settings Binary64 :=
  let s := { Settings.standard workers with parallel := !o.serial }
  match o.threads with
  | some n => s.withWorkers n
  | none => s

def linesText (lines : List String) : String := String.join (lines.map (· ++ "\n"))

def outcomeOf : Demo.Step (List String) → Outcome
  | .ok lines => ⟨0, linesText lines⟩
  | .error _ => ⟨1, ""⟩

/-- What a command line prints, on a machine that runs a number of workers at once. -/
def run (workers : Nat) (args : List String) : Outcome :=
  match request? args with
  | none => ⟨2, ""⟩
  | some .version => ⟨0, "autoqubo 0.1.0\n"⟩
  | some (.run none _) => ⟨1, "❌ 명령을 지정해주세요. --help를 참조하세요.\n"⟩
  | some (.run (some .linear) o) => outcomeOf (Demo.linearLines (settings workers o))
  | some (.run (some .portfolio) o) => outcomeOf (Demo.portfolioLines (settings workers o))

end QuboProbe.CommandLine
