/-
  QuboProbe.Main

  The program: prints what its command line asks for.
-/
import QuboProbe.CommandLine

def main (args : List String) : IO UInt32 := do
  let outcome := QuboProbe.CommandLine.run 4 args
  IO.print outcome.stdout
  return outcome.code.toUInt32
