/-
# The program

Prints the outcome of a run and exits with its code.
-/
import BitPack.CommandLine.Run

/-- Runs the program. -/
def main (arguments : List String) : IO UInt32 := do
  let outcome := BitPack.CommandLine.run arguments
  for line in outcome.output do
    IO.println line
  for line in outcome.errors do
    IO.eprintln line
  return UInt32.ofNat outcome.exitCode
